import MarkupActions.Proofs.Closing
import MarkupActions.Proofs.Runs
import MarkupActions.Proofs.Shadows

/-!
# Closing tags that are not seen

From in front of a frame with which a text ends no closing tag in it is found: a code region covers
them, and in a literal block there is none. Neither mending nor renaming brings one in.
-/

namespace MarkupActions

open Code (tick)

variable {edit : Text → Text → Prop}

/-- No closing tag by one of some names begins in a text, in any letter case. -/
def NoneCloses (names : List Text) (s : Text) : Prop :=
  ∀ name ∈ names, Text.contains ('<' :: '/' :: name) (Text.lower s) = false

section NoneCloses

variable {names : List Text} {s t : Text}

theorem NoneCloses.not_closing (absent : NoneCloses names s) {a front rest : Text}
    (listed : Text.lower front ∈ names) :
    s ≠ a ++ '<' :: '/' :: (front ++ rest) := by
  rintro rfl
  have found : Text.contains ('<' :: '/' :: Text.lower front)
    (Text.lower (a ++ '<' :: '/' :: (front ++ rest))) = true :=
    Text.contains_lower_iff.mpr ⟨a, '/' :: front, rest, rfl, rfl⟩
  rw [absent _ listed] at found
  cases found

theorem noneCloses_of_not
    (absent : ∀ a front rest, s = a ++ '<' :: '/' :: (front ++ rest) → Text.lower front ∈ names →
      False) :
    NoneCloses names s := by
  intro name listed
  cases found : Text.contains ('<' :: '/' :: name) (Text.lower s) with
  | false => rfl
  | true =>
    obtain ⟨a, lead, rest, whole, lower⟩ := Text.contains_lower_iff.mp found
    obtain ⟨c, front, rfl, slash, rfl⟩ := List.map_eq_cons_iff.mp lower
    obtain rfl := Text.eq_of_toLower_eq (by decide) slash
    exact False.elim (absent a front rest whole listed)

theorem NoneCloses.mended (fits : ∀ name ∈ names, Repair.fits name = true)
    (run : Rewrites Mends s t)
    (absent : NoneCloses names s) : NoneCloses names t :=
  fun name listed => (endsTags_mends.stands_closing (fits name listed)).not_contains run
    (absent name listed)

end NoneCloses

namespace SpellingTable

/-- The names that stand for a canonical tag. -/
def spellings (table : SpellingTable) (tag : Text) : List Text :=
  (table.entries.filter (·.2 == tag)).map (·.1)

theorem mem_spellings {table : SpellingTable} {name tag : Text} :
    name ∈ table.spellings tag ↔ (name, tag) ∈ table.entries := by
  simp [spellings]

/-- No spelling of a tag begins another canonical tag, or goes on from one. -/
def Unlike (table : SpellingTable) (tag : Text) : Prop :=
  ∀ entry ∈ table.entries, ∀ name ∈ table.spellings tag, name <+: entry.2 ∨ entry.2 <+: name →
    entry.2 = tag

theorem noneCloses_renamed {table : SpellingTable} (orderly : Orderly table) {tag : Text}
    (unlike : Unlike table tag)
    {s t : Text} (run : Rewrites (Respells table) s t)
    (absent : NoneCloses (table.spellings tag) s) :
    NoneCloses (table.spellings tag) t := by
  refine run.preserves (P := NoneCloses (table.spellings tag)) (fun s t step absent => ?_) absent
  refine noneCloses_of_not fun a front rest whole listed => ?_
  subst whole
  have plain := Repair.isPlain_of_fits (orderly _ (mem_spellings.mp listed)).1
  have lower : Text.lower ('/' :: front) = '/' :: Text.lower front := rfl
  rcases Respells.closing_cases orderly lower plain step with
    ⟨a', rest', rfl, _⟩ | ⟨token, other, back, known, closing, rfl, like⟩
  · exact absent.not_closing listed rfl
  · have entry := mem_of_canonical? known
    obtain rfl := unlike _ entry _ listed like
    have stands : a ++ (token.text ++ back) = a ++ '<' :: '/' :: (token.name ++ back) := by
      simp [TagToken.text, closing]
    exact absent.not_closing (mem_spellings.mpr entry) stands

end SpellingTable

namespace Frame

variable {frame : Frame} {names : List Text} {s v : Text}

/-- A closing tag by a name of tags does not begin in the mark that closes a frame. -/
theorem token_before {content front name back : Text} (fits : Repair.fits (Text.lower name) = true)
    (whole : content ++ frame.closing = front ++ '<' :: ('/' :: name ++ back)) :
    ∃ m, content = front ++ '<' :: ('/' :: name ++ m) := by
  have plain := Repair.isPlain_of_fits fits
  have solid : ∀ c ∈ '/' :: name, Solid c := by
    intro c inside
    rcases List.mem_cons.mp inside with rfl | inside
    · exact ⟨by decide, by decide, by decide⟩
    · refine ⟨?_, ?_, ?_⟩
      all_goals
        rintro rfl
        exact Text.not_mem_of_isPlain plain (by decide) inside
  rcases Text.append_eq_append_cons whole with ⟨m, rfl, inner⟩ | ⟨m, rfl, inner⟩
  · have behind : '/' :: name ++ back = m ++ (frame.closing ++ []) := by simpa using inner
    obtain ⟨k, rfl, _⟩ := solid_before solid behind
    exact ⟨k, rfl⟩
  · exfalso
    obtain ⟨shell, known⟩ := frame
    cases shell with
    | fence first last mark run opens closes =>
      have marks : '<' ∉ last := by
        refine Code.not_mem_of_closesFence closes (by decide) ?_
        rcases (Code.fence?_inv opens).2 with rfl | rfl <;> decide
      have unmarked : '<' ∉ '\n' :: last := by simp [marks]
      have mark : '\n' :: last = m ++ '<' :: ('/' :: name ++ back) := inner
      exact unmarked (by rw [mark]; simp)
    | span run positive =>
      have unmarked : '<' ∉ List.replicate run tick := by simp [tick]
      have mark : List.replicate run tick = m ++ '<' :: ('/' :: name ++ back) := inner
      exact unmarked (by rw [mark]; simp)
    | literal first stop last blanks opens stops closes =>
      obtain ⟨_, rfl⟩ := known
      have mark : '<' :: '/' :: (last ++ ['>']) = m ++ '<' :: ('/' :: name ++ back) := inner
      cases m with
      | nil =>
        have split : name ++ back = last ++ ['>'] :=
          (List.cons.inj (List.cons.inj mark).2).2.symm
        rcases Text.append_eq_append_cons split with ⟨j, rfl, _⟩ | ⟨j, rfl, _⟩
        · exact Text.not_mem_of_isPlain plain (by decide : Text.isPlainLetter '>'.toLower = false)
            (by simp)
        · have before : Text.lower name <+: Inert.literalName :=
            ⟨Text.lower j, by rw [← closes]; simp [Text.lower]⟩
          rw [← List.isPrefixOf_iff_prefix] at before
          simp [Repair.fits, before] at fits
      | cons c m =>
        have unmarked : '<' ∉ '/' :: (last ++ ['>']) := by
          simp [Inert.not_mem_of_literal closes
            (by decide : Text.isPlainLetter '<'.toLower = false)]
        exact unmarked (by rw [(List.cons.inj mark).2]; simp)

/-- The first closing tag behind text without tags stands behind the opening mark. -/
theorem closing_behind {front u : Text} (tags : '<' ∉ v)
    (whole : v ++ (frame.opening ++ s) = front ++ '<' :: '/' :: u) :
    ∃ k, front = v ++ (frame.opening ++ k) ∧ s = k ++ '<' :: '/' :: u := by
  rcases Text.append_eq_append_cons whole with ⟨m, rfl, _⟩ | ⟨m, rfl, inner⟩
  · exact False.elim (tags (by simp))
  · rcases Text.append_eq_append_cons inner with ⟨k, mark, tail⟩ | ⟨k, rfl, inside⟩
    · exfalso
      obtain ⟨shell, known⟩ := frame
      cases shell with
      | fence first =>
        have unmarked : '<' ∉ first := known
        have mark : first ++ ['\n'] = m ++ '<' :: k := mark
        have bracket : '<' ∈ first ++ ['\n'] := by simp [mark]
        simp [unmarked] at bracket
      | span run positive =>
        have unmarked : '<' ∉ List.replicate run tick := by simp [tick]
        have mark : List.replicate run tick = m ++ '<' :: k := mark
        exact unmarked (by rw [mark]; simp)
      | literal first stop last blanks opens =>
        obtain ⟨rfl, _⟩ := known
        have mark : '<' :: (first ++ ['>']) = m ++ '<' :: k := mark
        cases m with
        | nil =>
          obtain ⟨d, letters, rfl, here, _⟩ := List.map_eq_cons_iff.mp opens
          have same : d :: letters ++ ['>'] = k := (List.cons.inj mark).2
          rw [← same] at tail
          rw [← (List.cons.inj tail).1] at here
          exact absurd here (by decide)
        | cons c m =>
          have unmarked : '<' ∉ first ++ ['>'] := by
            simp [Inert.not_mem_of_literal opens
              (by decide : Text.isPlainLetter '<'.toLower = false)]
          exact unmarked (by rw [(List.cons.inj mark).2]; simp)
    · exact ⟨k, rfl, inside⟩

/-- What remains behind an opening mark, with no closing tag by one of some names to be seen from in
front of it. A literal block hides none, so there must be none. -/
structure Hides (frame : Frame) (names : List Text) (s : Text) : Prop where
  remains : frame.Remains s
  absent : frame.shell.isLiteral = true → NoneCloses names s

theorem opening_ne_nil (frame : Frame) : frame.opening ≠ [] := by
  obtain ⟨shell, plain⟩ := frame
  cases shell with
  | fence => simp [opening, Shell.opening]
  | span run positive => simp [opening, Shell.opening, Nat.ne_of_gt positive]
  | literal => simp [opening, Shell.opening]

/-- Only the mark of a literal block begins like a tag. -/
theorem head?_opening (other : frame.shell.isLiteral = false) (s : Text) :
    (frame.opening ++ s).head? ≠ some '<' := by
  obtain ⟨shell, plain⟩ := frame
  cases shell with
  | fence first =>
    have unmarked : '<' ∉ first ++ ['\n'] := by simpa [Shell.Plain] using plain
    intro head
    cases first with
    | nil => simp [opening, Shell.opening] at head
    | cons c first =>
      refine unmarked ?_
      rw [← show c = '<' from Option.some.inj head]
      simp
  | span run positive =>
    obtain ⟨n, rfl⟩ : ∃ n, run = n + 1 := ⟨run - 1, by omega⟩
    intro head
    exact absurd (Option.some.inj head) (by decide)
  | literal => cases other

namespace Hides

/-- Nothing is seen of a content that may be framed, and closes nothing in a literal block. -/
theorem of_holds {content : Text} (fits : ∀ name ∈ names, Repair.fits name = true)
    (holds : frame.Holds content)
    (absent : frame.shell.isLiteral = true → NoneCloses names content) :
    frame.Hides names (content ++ frame.closing) where
  remains := remains_closing holds
  absent verbatim := noneCloses_of_not fun a front rest whole listed => by
    have split : content ++ frame.closing = a ++ '<' :: ('/' :: front ++ rest) := by
      simpa using whole
    obtain ⟨m, inside⟩ := token_before (fits _ listed) split
    exact (absent verbatim).not_closing listed inside

/-- In a fence and in a span everything marked up is covered. -/
theorem code_shadow (hides : frame.Hides names s) {lineStart : Bool}
    (start : frame.shell.isFence = true → lineStart = true)
    (other : frame.shell.isLiteral = false) {k u : Text} (whole : s = k ++ '<' :: u) :
    (Code.shadow lineStart (frame.opening ++ s) (frame.opening ++ k).length).isSome = true := by
  obtain ⟨region, tail, split, _, only, found⟩ := region_remains hides.remains start
  have first : (region ++ tail).head? ≠ some '<' := by
    rw [← split]
    exact head?_opening other s
  have more : region ++ tail ≠ [] := by
    rw [← split]
    simp [frame.opening_ne_nil]
  obtain ⟨c, back, marked⟩ := List.exists_cons_of_ne_nil more
  have code : Code.regionLength? lineStart (region ++ tail) = some region.length := by
    have none : Inert.literalLength? (region ++ tail) = none := by
      rw [marked] at first ⊢
      exact Inert.literalLength?_of_ne (by simpa using first) back
    exact Inert.codeLength?_eq_some found none
  have within : (frame.opening ++ k).length < region.length := by
    have cut : region ++ tail = (frame.opening ++ k) ++ '<' :: u := by
      rw [← split, whole, List.append_assoc]
    rcases Text.append_eq_append_cons cut with ⟨m, early, _⟩ | ⟨m, _, late⟩
    · rw [early]
      simp
    · exact False.elim (ends_unmarked only (by decide : '<' ≠ '/' ∧ '<' ≠ '>') (by rw [late]; simp))
  have size : 0 < (frame.opening ++ k).length := by
    rw [List.length_append]
    exact Nat.add_pos_left (List.length_pos_of_ne_nil frame.opening_ne_nil) _
  rw [split, Code.shadow_of_region code size within more]
  rfl

/-- A closing tag behind the opening mark is covered. -/
theorem shadow (hides : frame.Hides names s) (clear : Clear v (frame.opening ++ s))
    (row : frame.shell.isFence = true → v.getLast? = some '\n') {mode : ScanMode}
    {front name back : Text} (listed : Text.lower name ∈ names)
    (whole : v ++ (frame.opening ++ s) = front ++ '<' :: '/' :: (name ++ back)) :
    (MarkupActions.shadow mode (v ++ (frame.opening ++ s)) front.length).isSome = true := by
  obtain ⟨k, rfl, inside⟩ := closing_behind clear.tags whole
  cases verbatim : frame.shell.isLiteral with
  | true => exact False.elim ((hides.absent verbatim).not_closing listed inside)
  | false =>
    have start : frame.shell.isFence = true → startsRow false v = true := fun fenced => by
      simp [startsRow, row fenced]
    have covered := hides.code_shadow start verbatim inside
    have passed := @Code.shadow_clear false _ _ clear (frame.opening ++ k).length
    rw [← List.length_append] at passed
    obtain ⟨stop, found⟩ := Option.isSome_iff_exists.mp covered
    rw [found] at passed
    unfold MarkupActions.shadow
    rw [passed]
    rfl

/-- From in front of the frame no closing tag is found. -/
theorem closing?_none (hides : frame.Hides names s) (clear : Clear v (frame.opening ++ s))
    (row : frame.shell.isFence = true → v.getLast? = some '\n') {mode : ScanMode}
    {closes? : Text → Option Nat}
    (sound : ∀ t n, closes? t = some n →
      ∃ name back, t = '<' :: '/' :: (name ++ back) ∧ Text.lower name ∈ names) :
    closing? mode closes? (v ++ (frame.opening ++ s)) = none := by
  refine closing?_of_covered fun front tail n whole closes => ?_
  obtain ⟨name, back, rfl, listed⟩ := sound tail n closes
  exact hides.shadow clear row listed whole

end Hides

end Frame

end MarkupActions
