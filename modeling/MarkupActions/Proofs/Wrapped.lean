import MarkupActions.Proofs.Frames
import MarkupActions.Proofs.Passes

/-!
# Mending what a frame holds

A repair stays on its own side of the mark that closes a frame, but for one kind: the attributes of
an opening tag that breaks off may go on behind the mark, and then the tag is ended there.
-/

namespace MarkupActions

namespace Text

variable {reach? : Text → Option Nat} {back front : Text}

/-- Whether a pass comes to a stop where `front` ends, with `back` behind it. At each step it takes
as much as `reach?` says, or else one character; `skip` characters have been taken already. -/
def stopsAt (reach? : Text → Option Nat) (back : Text) : (skip : Nat) → (front : Text) → Bool
  | skip, [] => skip == 0
  | skip + 1, _ :: front => stopsAt reach? back skip front
  | 0, c :: front => stopsAt reach? back ((reach? (c :: front ++ back)).getD 1 - 1) front

theorem stopsAt_skip {skip : Nat} (stops : stopsAt reach? back skip front = true) :
    skip ≤ front.length ∧ stopsAt reach? back 0 (front.drop skip) = true := by
  induction front generalizing skip with
  | nil =>
    obtain rfl : skip = 0 := by simpa [stopsAt] using stops
    exact ⟨Nat.le_refl 0, rfl⟩
  | cons c front ih =>
    cases skip with
    | zero => exact ⟨Nat.zero_le _, stops⟩
    | succ skip =>
      obtain ⟨bound, rest⟩ := ih stops
      exact ⟨Nat.succ_le_succ bound, rest⟩

theorem stopsAt_of_none {c : Char} (passed : reach? (c :: front ++ back) = none)
    (stops : stopsAt reach? back 0 (c :: front) = true) : stopsAt reach? back 0 front = true := by
  rwa [stopsAt, passed] at stops

/-- What is taken at the head of a text with a stop in it ends in front of the stop. -/
theorem stopsAt_of_some {n : Nat} (more : front ≠ []) (positive : 0 < n)
    (taken : reach? (front ++ back) = some n) (stops : stopsAt reach? back 0 front = true) :
    n ≤ front.length ∧ stopsAt reach? back 0 (front.drop n) = true := by
  obtain ⟨c, front, rfl⟩ := List.exists_cons_of_ne_nil more
  obtain ⟨n, rfl⟩ : ∃ m, n = m + 1 := ⟨n - 1, by omega⟩
  rw [stopsAt, taken] at stops
  obtain ⟨bound, rest⟩ := stopsAt_skip stops
  exact ⟨Nat.succ_le_succ bound, rest⟩

/-- A text `u` that is taken as a whole, where there is a stop, ends in front of the stop. -/
theorem stopsAt_split {u rest : Text} (more : front ≠ []) (some' : u ≠ [])
    (whole : front ++ back = u ++ rest) (taken : reach? (u ++ rest) = some u.length)
    (stops : stopsAt reach? back 0 front = true) :
    ∃ m, front = u ++ m ∧ rest = m ++ back ∧ stopsAt reach? back 0 m = true := by
  rw [← whole] at taken
  obtain ⟨bound, later⟩ := stopsAt_of_some more (List.length_pos_of_ne_nil some') taken stops
  have first : u <+: front ++ back := ⟨rest, whole.symm⟩
  obtain ⟨m, rfl⟩ := List.prefix_of_prefix_length_le first (List.prefix_append front back) bound
  rw [List.drop_left] at later
  rw [List.append_assoc] at whole
  exact ⟨m, rfl, (List.append_cancel_left whole).symm, later⟩

theorem stopsAt_unreached (never : ∀ s, reach? s = none) (back front : Text) :
    stopsAt reach? back 0 front = true := by
  induction front with
  | nil => rfl
  | cons c front ih => rwa [stopsAt, never]

end Text

namespace Repair

variable {frame : Frame} {sought : List Text} {content after new : Text} {n : Nat} {repair : Repair}

/-- How far an opening tag goes that a repair ends, if there is one at the head of a text. -/
def reach? (repair : Repair) (s : Text) : Option Nat :=
  if repair.endsOpening then (repair.rule s).map (·.1) else none

theorem reach?_of_none {s : Text} (quiet : repair.rule s = none) : repair.reach? s = none := by
  simp [reach?, quiet]

theorem reach?_of_some {s : Text} (ends : repair.endsOpening = true)
    (fires : repair.rule s = some (n, new)) : repair.reach? s = some n := by
  simp [reach?, ends, fires]

/-- A change within a content, or one that reaches as far as the mark that closes its frame and
leaves it. -/
inductive ChangesContent (frame : Frame) (content new : Text) (n : Nat) : Prop
  | within (front back : Text) (whole : content = front ++ back) (more : front ≠ [])
      (size : n = front.length) (made : Rewrites Mends front new)
  | upTo (content' row past : Text) (stop : Char) (mark : frame.closing = row ++ stop :: past)
      (tags : '<' ∉ past) (size : n = (content ++ (row ++ [stop])).length)
      (written : new = content' ++ (row ++ [stop])) (made : Rewrites Mends content content')

theorem ChangesContent.of_le (orderly : repair.mendsTags = true) (short : n ≤ content.length)
    (fires : repair.rule (content ++ (frame.closing ++ after)) = some (n, new)) :
    ChangesContent frame content new n := by
  obtain ⟨front, back, whole, rfl, made⟩ := rule_rewrites orderly fires
  have first : '<' :: front <+: content ++ (frame.closing ++ after) := ⟨back, whole.symm⟩
  obtain ⟨rest, split⟩ := List.prefix_of_prefix_length_le first (List.prefix_append content _) short
  exact .within _ rest split.symm (by simp) rfl made

/-- A name with quotes behind it stands on one side of the mark. -/
theorem strayQuoteRule_le (plain : ∀ name ∈ sought, Text.IsPlain name) (more : content ≠ [])
    (fires : strayQuoteRule sought (content ++ (frame.closing ++ after)) = some (n, new)) :
    n ≤ content.length := by
  obtain ⟨lead, front, quotes, rest, leads, whole, named, _, quoted, rfl, _⟩ :=
    strayQuoteRule_inv fires
  obtain ⟨c, content, rfl⟩ := List.exists_cons_of_ne_nil more
  obtain ⟨slash, rfl, slashes⟩ : ∃ slash, lead = '<' :: slash ∧ (slash = [] ∨ slash = ['/']) := by
    rcases leads with rfl | rfl
    · exact ⟨[], rfl, .inl rfl⟩
    · exact ⟨['/'], rfl, .inr rfl⟩
  have solid : ∀ d ∈ slash ++ (front ++ (quotes ++ ['>'])), Frame.Solid d := by
    intro d inside
    simp only [List.mem_append, List.mem_singleton] at inside
    rcases inside with stroke | letter | quote | rfl
    · rcases slashes with rfl | rfl
      · cases stroke
      · obtain rfl := List.mem_singleton.mp stroke
        exact ⟨by decide, by decide, by decide⟩
    · exact Frame.solid_of_isNameChar (isNameChar_of_named plain named d letter)
    · exact Frame.solid_of_isQuote (quoted d quote)
    · exact ⟨by decide, by decide, by decide⟩
  have inner : slash ++ (front ++ (quotes ++ ['>'])) ++ rest = content ++
    (frame.closing ++ after) := by
    simpa using (List.cons.inj whole).2.symm
  obtain ⟨m, rfl, _⟩ := Frame.solid_before solid inner
  simp only [List.length_append, List.length_cons, List.length_nil]
  omega

/-- A closing tag that is ended behind the content is ended before the blanks there, and the mark
behind these stays. -/
theorem unterminatedClosingRule_mark (plain : ∀ name ∈ sought, Text.IsPlain name)
    (more : content ≠ []) (long : content.length < n)
    (fires : unterminatedClosingRule sought (content ++ (frame.closing ++ after)) =
      some (n, new)) : ChangesContent frame content new n := by
  obtain ⟨c, content, rfl⟩ := List.exists_cons_of_ne_nil more
  obtain ⟨front, rest, whole, named, ended⟩ := unterminatedClosingRule_inv fires
  obtain ⟨rfl, inner⟩ := List.cons.inj whole
  have solid : ∀ c ∈ '/' :: front, Frame.Solid c := by
    intro c inside
    rcases List.mem_cons.mp inside with rfl | inside
    · exact ⟨by decide, by decide, by decide⟩
    · exact Frame.solid_of_isNameChar (isNameChar_of_named plain named c inside)
  obtain ⟨m, rfl, rfl⟩ := Frame.solid_before solid inner.symm
  obtain ⟨row, stop, past, mark, _, rows, stops, tags, _⟩ := frame.closing_eq
  have dark : Text.isBlank stop = false := by rcases stops with rfl | rfl | rfl <;> decide
  have split : m ++ (frame.closing ++ after) = (m ++ row) ++ stop :: (past ++ after) := by
    simp [mark]
  rw [split] at ended
  rcases ended with ⟨empty, _⟩ | ⟨c, tail, stands, _, _, rfl, rfl⟩
  · have blank := List.dropWhile_eq_nil_iff.mp empty stop (by simp)
    rw [dark] at blank
    cases blank
  · have blank : ∀ c ∈ m, Text.isBlank c = true := by
      by_contra other
      -- otherwise the blanks end in the content, and no more than one character is taken with them
      have ends : ¬ ∀ c ∈ m ++ row, Text.isBlank c = true := fun all =>
        other fun c inside => all c (List.mem_append_left _ inside)
      have short : ((m ++ row ++ stop :: (past ++ after)).takeWhile Text.isBlank).length <
          m.length := by
        rw [List.append_assoc, List.takeWhile_append, if_neg]
        · refine lt_of_le_of_ne (List.takeWhile_sublist _).length_le fun same => other ?_
          exact List.takeWhile_eq_self_iff.mp ((List.takeWhile_sublist _).eq_of_length same)
        · intro same
          exact other (List.takeWhile_eq_self_iff.mp ((List.takeWhile_sublist _).eq_of_length same))
      simp only [List.length_append, List.length_cons] at long
      omega
    have all : ∀ c ∈ m ++ row, Text.isBlank c = true := by
      intro c inside
      exact (List.mem_append.mp inside).elim (blank c) (rows c)
    rw [Text.takeWhile_exact all (by simpa using dark)]
    rw [Text.dropWhile_exact all (by simpa using dark)] at stands
    obtain ⟨rfl, _⟩ := List.cons.inj stands
    have inserted : Rewrites Mends [] ['>'] := .single (.closes (.bracket (by simp)))
    have made := (((inserted.append_right m).append_left front).cons '/').cons '<'
    refine .upTo ('<' :: '/' :: (front ++ (['>'] ++ m))) row past stop mark tags ?_ ?_ made
    · simp only [List.length_append, List.length_cons, List.length_nil]
      omega
    · simp

/-- A repair changes the content by itself, if a tag that it ends goes no further. -/
theorem rule_content (orderly : repair.mendsTags = true) (more : content ≠ [])
    (stops : repair.endsOpening = true → n ≤ content.length)
    (fires : repair.rule (content ++ (frame.closing ++ after)) = some (n, new)) :
    ChangesContent frame content new n := by
  have plain : ∀ name ∈ repair.sought, Text.IsPlain name :=
    fun name listed => isPlain_of_fits (sought_fits orderly name listed)
  by_cases short : n ≤ content.length
  · exact .of_le orderly short fires
  · cases repair with
    | literal old new => cases orderly
    | strayQuote tags => exact absurd (strayQuoteRule_le plain more fires) short
    | unterminatedClosing tags =>
      exact unterminatedClosingRule_mark plain more (by omega) fires
    | unterminatedSelfClosing tags => exact absurd (stops rfl) short

/-- Behind a change that a repair makes the stop is still one. -/
theorem stopsAt_drop {front back after : Text} (more : front ≠ [])
    (fires : repair.rule (front ++ back ++ after) = some (front.length, new))
    (stops : Text.stopsAt repair.reach? after 0 (front ++ back) = true) :
    Text.stopsAt repair.reach? after 0 back = true := by
  cases ends : repair.endsOpening with
  | false => exact Text.stopsAt_unreached (by simp [reach?, ends]) after back
  | true =>
    have rest := (Text.stopsAt_of_some (by simp [more]) (List.length_pos_of_ne_nil more)
      (reach?_of_some ends fires) stops).2
    rwa [List.drop_left] at rest

/-- A repair changes a content within its frame, and what comes after as if it stood alone. -/
theorem patchAll_content (orderly : repair.mendsTags = true) (frame : Frame) (after : Text)
    (stops : Text.stopsAt repair.reach? (frame.closing ++ after) 0 content = true) :
    ∃ content', Text.patchAll repair.rule (content ++ (frame.closing ++ after)) =
      content' ++ (frame.closing ++ Text.patchAll repair.rule after) ∧
        Rewrites Mends content content' := by
  induction size : content.length using Nat.strongRecOn generalizing content with
  | ind size ih =>
    subst size
    cases content with
    | nil => exact ⟨[], frame.transparent_closing.mend repair orderly after, .refl []⟩
    | cons c content =>
      cases fires : repair.rule (c :: content ++ (frame.closing ++ after)) with
      | none =>
        obtain ⟨content', rest, made⟩ :=
          ih content.length (by simp) (Text.stopsAt_of_none (reach?_of_none fires) stops) rfl
        refine ⟨c :: content', ?_, made.cons c⟩
        rw [List.cons_append] at fires ⊢
        rw [Text.patchAll_of_none fires, rest]
        rfl
      | some change =>
        obtain ⟨n, new⟩ := change
        have bound : repair.endsOpening = true → n ≤ (c :: content).length := by
          intro ends
          obtain ⟨_, _, _, size, _⟩ := rule_rewrites orderly fires
          exact (Text.stopsAt_of_some (by simp) (by simp [← size]) (reach?_of_some ends fires)
            stops).1
        cases rule_content orderly (by simp) bound fires with
        | within front back whole more size made =>
          rw [whole] at fires stops ⊢
          have less : back.length < (c :: content).length := by
            rw [whole, List.length_append]
            have := List.length_pos_of_ne_nil more
            omega
          rw [size] at fires
          obtain ⟨back', rest, later⟩ := ih back.length less (stopsAt_drop more fires stops) rfl
          refine ⟨new ++ back', ?_, made.append later⟩
          rw [List.append_assoc] at fires
          rw [List.append_assoc, Text.patchAll_of_some fires more, rest, List.append_assoc]
        | upTo content' row past stop mark tags size written made =>
          refine ⟨content', ?_, made⟩
          have split : c :: content ++ (frame.closing ++ after) =
              (c :: content ++ (row ++ [stop])) ++ (past ++ after) := by
            rw [mark]
            simp
          rw [split, size] at fires
          rw [split, Text.patchAll_of_some fires (by simp), patchAll_append_unmarked orderly tags,
            written, mark]
          simp

/-- The repairs of a family that come after the first one do not end opening tags. -/
def EndsFirst (repairs : List Repair) : Prop :=
  ∀ repair ∈ repairs.tail, repair.endsOpening = false

theorem builtIn_endsFirst : ∀ family ∈ Family.builtIn, EndsFirst family.repairs := by
  unfold EndsFirst
  decide

theorem applyAll_content {repairs : List Repair}
    (orderly : ∀ repair ∈ repairs, repair.mendsTags = true) (first : EndsFirst repairs)
    (frame : Frame) (after : Text)
    (stops : ∀ repair ∈ repairs,
      Text.stopsAt repair.reach? (frame.closing ++ after) 0 content = true) :
    ∃ content', applyAll repairs (content ++ (frame.closing ++ after)) =
      content' ++ (frame.closing ++ applyAll repairs after) ∧ Rewrites Mends content content' := by
  unfold applyAll
  induction repairs generalizing content after with
  | nil => exact ⟨content, rfl, .refl content⟩
  | cons repair repairs ih =>
    have fits := orderly repair List.mem_cons_self
    obtain ⟨content', step, made⟩ :=
      patchAll_content fits frame after (stops repair List.mem_cons_self)
    have unreached : ∀ other ∈ repairs, ∀ s, other.reach? s = none := fun other inside s => by
      simp [reach?, first other inside]
    obtain ⟨content'', rest, later⟩ := ih (fun other inside => orderly other (by simp [inside]))
      (fun other inside => first other (List.mem_of_mem_tail inside))
      (Text.patchAll repair.rule after)
      fun other inside => Text.stopsAt_unreached (unreached other inside) _ content'
    refine ⟨content'', ?_, made.trans later⟩
    rw [List.foldl_cons, List.foldl_cons, apply_eq fits, apply_eq fits, step, rest]

end Repair

end MarkupActions
