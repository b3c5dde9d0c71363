import MarkupActions.Proofs.Openers
import MarkupActions.Proofs.Renamed
import MarkupActions.Proofs.Stripping
import MarkupActions.Proofs.Views

/-!
# Texts that differ in the names of tags

Two texts are alike but for the names of some tags. To whom these tags mean nothing the texts are
alike: code and literal blocks reach as far, the same blocks stand in them, and what is left when
these are taken out differs in such names only.
-/

namespace MarkupActions

open Code (tick)

/-- Whether a name ends here as names of tags do that are complete. -/
def endsName (c : Char) : Bool := Text.isBlank c || c == '/' || c == '>'

/-- A text, and the same with some of the tags of a table respelled. Behind each of these names
comes what ends a name. -/
inductive Respelt (table : SpellingTable) : Text → Text → Prop
  | nil : Respelt table [] []
  | keep (c : Char) {s t : Text} (rest : Respelt table s t) : Respelt table (c :: s) (c :: t)
  | token (closing : Bool) {name tag : Text} {c : Char} {s t : Text} (named : TagName name)
      (tagged : TagName tag) (known : table.canonical? name = some tag) (ends : endsName c = true)
      (rest : Respelt table s t) :
      Respelt table ((TagToken.mk closing name).text ++ c :: s)
        ((TagToken.mk closing tag).text ++ c :: t)

theorem not_isNameChar_of_endsName {c : Char} (ends : endsName c = true) :
    Text.isNameChar c = false := by
  simp only [endsName, Bool.or_eq_true, beq_iff_eq] at ends
  rcases ends with (blank | rfl) | rfl
  · cases named : Text.isNameChar c with
    | false => rfl
    | true =>
      rw [Text.not_blank_of_isNameChar named] at blank
      cases blank
  · decide
  · decide

namespace Respelt

variable {table : SpellingTable} {s t u v : Text}

theorem refl (s : Text) : Respelt table s s := by
  induction s with
  | nil => exact .nil
  | cons c s ih => exact ih.keep c

theorem append_left (u : Text) (respelt : Respelt table s t) : Respelt table (u ++ s) (u ++ t) := by
  induction u with
  | nil => exact respelt
  | cons c u ih => exact ih.keep c

theorem append (front : Respelt table u v) (respelt : Respelt table s t) :
    Respelt table (u ++ s) (v ++ t) := by
  induction front with
  | nil => exact respelt
  | keep c _ ih => exact ih.keep c
  | token closing named tagged known ends _ ih =>
    rw [List.append_assoc, List.append_assoc]
    exact .token closing named tagged known ends ih

/-- It is a text with some of its tags renamed. -/
theorem renamed (respelt : Respelt table s t) : Renamed table s t := by
  induction respelt with
  | nil => exact .nil
  | keep c _ ih => exact ih.keep c
  | @token closing name tag c s t named tagged known ends _ ih =>
    refine .token ⟨closing, name⟩ tag (TagToken.read?_text named.isName ?_) known (ih.keep c)
    simpa using not_isNameChar_of_endsName ends

/-- Before the first angle bracket nothing is respelled. -/
theorem split_unmarked (tags : '<' ∉ u) (respelt : Respelt table (u ++ s) t) :
    ∃ t', t = u ++ t' ∧ Respelt table s t' := by
  induction u generalizing t with
  | nil => exact ⟨t, rfl, respelt⟩
  | cons c u ih =>
    simp only [List.mem_cons, not_or] at tags
    generalize whole : c :: u ++ s = w at respelt
    cases respelt with
    | nil => cases whole
    | keep d rest =>
      obtain ⟨rfl, rfl⟩ := List.cons.inj whole
      obtain ⟨t', rfl, rest'⟩ := ih tags.2 rest
      exact ⟨t', rfl, rest'⟩
    | token closing =>
      obtain ⟨slash, _, shape⟩ := TagToken.exists_slash closing
      rw [shape] at whole
      exact False.elim (tags.1 (List.cons.inj whole).1.symm)

theorem eq_nil (respelt : Respelt table [] t) : t = [] :=
  List.head?_eq_none_iff.mp respelt.renamed.head

theorem split_unmarked_new (tags : '<' ∉ u) (respelt : Respelt table s (u ++ t)) :
    ∃ s', s = u ++ s' ∧ Respelt table s' t := by
  induction u generalizing s with
  | nil => exact ⟨s, rfl, respelt⟩
  | cons c u ih =>
    simp only [List.mem_cons, not_or] at tags
    generalize whole : c :: u ++ t = w at respelt
    cases respelt with
    | nil => cases whole
    | keep d rest =>
      obtain ⟨rfl, rfl⟩ := List.cons.inj whole
      obtain ⟨s', rfl, rest'⟩ := ih tags.2 rest
      exact ⟨s', rfl, rest'⟩
    | token closing =>
      obtain ⟨slash, _, shape⟩ := TagToken.exists_slash closing
      rw [shape] at whole
      exact False.elim (tags.1 (List.cons.inj whole).1.symm)

/-- A token is respelled in front of what ends its name. -/
theorem token_front (closing : Bool) {name tag : Text} (named : TagName name)
    (tagged : TagName tag) (known : table.canonical? name = some tag)
    (ends : s.head?.any endsName = true) (rest : Respelt table s t) :
    Respelt table ((TagToken.mk closing name).text ++ s) ((TagToken.mk closing tag).text ++ t) := by
  obtain ⟨c, head, stops⟩ := (Option.any_eq_true _ _).mp ends
  obtain ⟨s, rfl⟩ := List.head?_eq_some_iff.mp head
  have other : '<' ∉ [c] := by
    rw [List.mem_singleton]
    rintro rfl
    exact absurd stops (by decide)
  obtain ⟨t, rfl, behind⟩ := split_unmarked (u := [c]) other rest
  exact .token closing named tagged known stops behind

/-- Two lengths behind which the texts go on alike: both before the end of what they begin with, or
each some way into what follows it. -/
inductive SameRest (table : SpellingTable) (u s t : Text) : Option Nat → Option Nat → Prop
  | none : SameRest table u s t none none
  | before {n : Nat} (bound : n ≤ u.length) : SameRest table u s t (some n) (some n)
  | behind {k j : Nat} (rest : Respelt table (s.drop k) (t.drop j)) :
      SameRest table u s t (some (u.length + k)) (some (u.length + j))

theorem SameRest.shift {c : Char} {x y : Option Nat} (rest : Respelt table s t)
    (same : SameRest table (u ++ [c]) s t x y) : SameRest table u (c :: s) (c :: t) x y := by
  cases same with
  | none => exact .none
  | @before n bound =>
    rw [List.length_append, List.length_singleton] at bound
    by_cases short : n ≤ u.length
    · exact .before short
    · obtain rfl : n = u.length + 1 := by omega
      exact .behind (k := 1) (j := 1) rest
  | @behind k j later =>
    rw [List.length_append, List.length_singleton, Nat.add_assoc, Nat.add_assoc, Nat.add_comm 1,
      Nat.add_comm 1]
    exact .behind (k := k + 1) (j := j + 1) later

theorem SameRest.word {old new : Text} {x y z : Option Nat} (more : new ≠ [])
    (rest : Respelt table s t) (first : SameEnd u.length old.length new.length x y)
    (second : SameRest table (u ++ new) s t y z) :
    SameRest table u (old ++ s) (new ++ t) x z := by
  have long := List.length_pos_of_ne_nil more
  have behind : ∀ {k j}, Respelt table (s.drop k) (t.drop j) →
      SameRest table u (old ++ s) (new ++ t) (some (u.length + old.length + k))
        (some (u.length + new.length + j)) := by
    intro k j later
    rw [Nat.add_assoc, Nat.add_assoc]
    refine .behind ?_
    rwa [← List.drop_drop, ← List.drop_drop, List.drop_left, List.drop_left]
  cases first with
  | none =>
    cases second
    exact .none
  | some place =>
    generalize middle : some _ = y at second
    cases second with
    | none => cases middle
    | before bound =>
      obtain rfl := Option.some.inj middle
      rw [List.length_append] at bound
      cases place with
      | before short => exact .before short
      | behind k =>
        obtain rfl : k = 0 := by omega
        exact behind (k := 0) (j := 0) rest
    | @behind k j later =>
      obtain rfl := Option.some.inj middle
      rw [List.length_append] at place ⊢
      generalize size : u.length + new.length + k = q at place
      cases place with
      | before short => omega
      | behind k₀ =>
        obtain rfl : k₀ = k := by omega
        exact behind later

/-- A length that hangs on the words of a text as regions of code do reaches alike in both. -/
theorem sameRest {length? : Text → Option Nat}
    (sameEnd : ∀ {a old new b : Text}, Dark old → Dark new →
      SameEnd a.length old.length new.length (length? (a ++ (old ++ b)))
        (length? (a ++ (new ++ b))))
    (respelt : Respelt table s t) (u : Text) :
    SameRest table u s t (length? (u ++ s)) (length? (u ++ t)) := by
  have shape : ∀ (u : Text) (c : Char) (x : Text), (u ++ [c]) ++ x = u ++ c :: x := fun u c x => by
    simp
  induction respelt generalizing u with
  | nil =>
    cases length? (u ++ []) with
    | none => exact .none
    | some n =>
      by_cases short : n ≤ u.length
      · exact .before short
      · obtain ⟨k, rfl⟩ := Nat.exists_eq_add_of_le (Nat.le_of_not_le short)
        exact .behind (by simpa using .nil)
  | @keep c s t rest ih =>
    have next := ih (u ++ [c])
    rw [shape, shape] at next
    exact next.shift rest
  | @token closing name tag c s t named tagged known ends rest ih =>
    have dark := @TagToken.dark_text ⟨closing, name⟩ named.isName
    have dark' := @TagToken.dark_text ⟨closing, tag⟩ tagged.isName
    have next := ih (u ++ (TagToken.mk closing tag).text ++ [c])
    rw [shape, shape] at next
    have later := next.shift rest
    rw [List.append_assoc, List.append_assoc] at later
    exact SameRest.word dark'.more (rest.keep c) (sameEnd dark dark') later

inductive Meets (table : SpellingTable) (s t : Text) : Option Nat → Option Nat → Prop
  | none : Meets table s t none none
  | some {n k : Nat} (rest : Respelt table (s.drop n) (t.drop k)) :
      Meets table s t (some n) (some k)

/-- Code reaches alike in both. -/
theorem code_meets (respelt : Respelt table s t) (lineStart : Bool) :
    Meets table s t (Code.regionLength? lineStart s) (Code.regionLength? lineStart t) := by
  have same := respelt.sameRest
    (fun dark dark' => Code.regionLength?_sameEnd dark dark' lineStart) []
  simp only [List.nil_append] at same
  generalize Code.regionLength? lineStart s = x, Code.regionLength? lineStart t = y at same
  cases same with
  | none => exact .none
  | before bound =>
    obtain rfl := Nat.le_zero.mp bound
    exact .some respelt
  | behind rest => exact .some (by simpa using rest)

end Respelt

end MarkupActions
