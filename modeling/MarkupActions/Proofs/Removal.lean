import MarkupActions.Proofs.Shading
import MarkupActions.Proofs.Stripping

/-!
# What stripping takes out

The layout of a text around its inert regions: what stripping leaves are the gaps, and a place is
taken out if it stands in one of the regions. Where no literal block opens and nothing is guarded,
these are the places that code covers: the walk that asks what covers a place and the one that
strips a text make the same steps.
-/

namespace MarkupActions

open Code (tick)

namespace Layout

variable {Part : Type} {write : Part → Text}

/-- Whether the place `pos` of a text stands in one of its parts. -/
def inPart (write : Part → Text) : Layout Part → (pos : Nat) → Bool
  | last _, _ => false
  | next gap part rest, pos =>
    if pos < gap.length + (write part).length then decide (gap.length ≤ pos)
    else rest.inPart write (pos - (gap.length + (write part).length))

theorem inPart_prepend_of_lt {a : Text} {l : Layout Part} {pos : Nat} (before : pos < a.length) :
    (l.prepend a).inPart write pos = false := by
  cases l with
  | last gap => rfl
  | next gap part rest =>
    have inside : pos < (a ++ gap).length + (write part).length := by
      rw [List.length_append]
      omega
    have outside : ¬ (a ++ gap).length ≤ pos := by
      rw [List.length_append]
      omega
    rw [prepend, inPart, if_pos inside, decide_eq_false outside]

theorem inPart_prepend (write : Part → Text) (a : Text) (l : Layout Part) (pos : Nat) :
    (l.prepend a).inPart write (a.length + pos) = l.inPart write pos := by
  cases l with
  | last gap => rfl
  | next gap part rest =>
    have within : a.length + pos < (a ++ gap).length + (write part).length ↔
      pos < gap.length + (write part).length := by
      rw [List.length_append]
      omega
    have behind : (a ++ gap).length ≤ a.length + pos ↔ gap.length ≤ pos := by
      rw [List.length_append]
      omega
    have left : a.length + pos - ((a ++ gap).length + (write part).length) =
      pos - (gap.length + (write part).length) := by
      rw [List.length_append]
      omega
    simp only [prepend, inPart, within, behind, left]

theorem inPart_of_lt (write : Part → Text) (part : Part) (rest : Layout Part) {pos : Nat}
    (inside : pos < (write part).length) : (next [] part rest).inPart write pos = true := by
  simp [inPart, inside]

theorem inPart_of_add (write : Part → Text) (part : Part) (rest : Layout Part) (pos : Nat) :
    (next [] part rest).inPart write ((write part).length + pos) = rest.inPart write pos := by
  have behind : ¬ (write part).length + pos < (write part).length := by omega
  simp only [inPart, List.length_nil, Nat.zero_add, behind, if_false, Nat.add_sub_cancel_left]

end Layout

namespace Inert

/-- A text cut at the inert regions that stripping takes out of it. -/
def layout (guarded : Matcher) (lineStart : Bool) : Text → Layout Text
  | [] => .last []
  | c :: s =>
    match regionLength? lineStart (c :: s) with
    | some n => .next [] (c :: s.take (n - 1)) (layout guarded false (s.drop (n - 1)))
    | none =>
      match guarded.blockAt? (c :: s) with
      | some block => (layout guarded false (s.drop (block.text.length - 1))).prepend block.text
      | none =>
        let n := Code.plainLength (c :: s)
        (layout guarded (c == '\n') (s.drop (n - 1))).prepend (c :: s.take (n - 1))
termination_by s => s.length
decreasing_by all_goals (simp only [List.length_drop, List.length_cons]; omega)

variable {guarded : Matcher}

theorem layout_of_region {lineStart : Bool} {c : Char} {s : Text} {n : Nat}
    (found : regionLength? lineStart (c :: s) = some (n + 1)) :
    layout guarded lineStart (c :: s) = .next [] ((c :: s).take (n + 1))
      (layout guarded false (s.drop n)) := by
  rw [layout, found]
  rfl

theorem layout_of_plain {lineStart : Bool} {c : Char} {s : Text} {n : Nat}
    (plain : regionLength? lineStart (c :: s) = none) (none : guarded.blockAt? (c :: s) = none)
    (stride : Code.plainLength (c :: s) = n + 1) :
    layout guarded lineStart (c :: s) =
      (layout guarded (c == '\n') (s.drop n)).prepend ((c :: s).take (n + 1)) := by
  rw [layout, plain, none, stride]
  rfl

/-- What stripping leaves are the gaps. -/
theorem gaps_layout (guarded : Matcher) (lineStart : Bool) (s : Text) :
    (layout guarded lineStart s).gaps = strip guarded lineStart s := by
  induction lineStart, s using layout.induct guarded with
  | case1 lineStart => rw [layout, strip]; rfl
  | case2 lineStart c s n region ih =>
    rw [layout, strip, region]
    simp only [← ih]
    rfl
  | case3 lineStart c s region block found ih =>
    rw [layout, strip, region, found]
    simp only [Layout.gaps_prepend, ih]
  | case4 lineStart c s region none n ih =>
    rw [layout, strip, region, none]
    simp only [Layout.gaps_prepend]
    exact congrArg _ ih

/-- Cutting a text loses none of it. -/
theorem text_layout (guarded : Matcher) (lineStart : Bool) (s : Text) :
    (layout guarded lineStart s).text id = s := by
  induction lineStart, s using layout.induct guarded with
  | case1 lineStart => rw [layout]; rfl
  | case2 lineStart c s n region ih =>
    rw [layout, region]
    simp only [Layout.text, ih, id_eq, List.nil_append, List.cons_append, List.take_append_drop]
  | case3 lineStart c s region block found ih =>
    obtain ⟨tail, whole⟩ := Matcher.blockAt?_split found
    rw [layout, region, found]
    simp only [Layout.text_prepend, ih]
    rw [Text.drop_front whole block.text_length_pos, ← whole]
  | case4 lineStart c s region none n ih =>
    rw [layout, region, none]
    simp only [Layout.text_prepend]
    exact (congrArg (c :: s.take (n - 1) ++ ·) ih).trans
      (congrArg (c :: ·) (List.take_append_drop (n - 1) s))

theorem blockAt?_empty (s : Text) : Matcher.empty.blockAt? s = none := by
  rw [Matcher.blockAt?, Option.bind_eq_none_iff]
  intro tag _
  rfl

theorem literals_drop {s : Text} (n : Nat)
    (literals : ∀ a b, s = a ++ b → literalLength? b = none) :
    ∀ a b, s.drop n = a ++ b → literalLength? b = none := by
  intro a b whole
  refine literals (s.take n ++ a) b ?_
  rw [List.append_assoc, ← whole, List.take_append_drop]

/-- Where no literal block opens, code covers the places that are taken out, but for the marks that
a region begins with. -/
theorem shadow_eq_inPart {s : Text} {pos : Nat} {d : Char} {lineStart : Bool}
    (literals : ∀ a b, s = a ++ b → literalLength? b = none) (here : s[pos]? = some d)
    (other : d ≠ ' ' ∧ d ≠ tick ∧ d ≠ '~') :
    (Code.shadow lineStart s pos).isSome = (layout Matcher.empty lineStart s).inPart id pos := by
  induction lineStart, s using layout.induct Matcher.empty generalizing pos with
  | case1 lineStart => cases here
  | case2 lineStart c s n region ih =>
    have code : Code.regionLength? lineStart (c :: s) = some n :=
      codeLength?_eq_some region (literals [] _ rfl)
    obtain ⟨k, rfl⟩ := Nat.exists_eq_add_one_of_ne_zero (Nat.ne_of_gt (Code.regionLength?_pos code))
    obtain ⟨long, _⟩ := List.getElem?_eq_some_iff.mp here
    rw [layout_of_region region]
    rcases Nat.lt_or_ge pos (k + 1) with inside | past
    · have later : 0 < pos := by
        refine Nat.pos_of_ne_zero fun zero => ?_
        subst zero
        obtain rfl : c = d := Option.some.inj here
        rw [Code.regionLength?_of_calm (Code.calm_cons other s) (by simpa using other.2.1)] at code
        cases code
      have within : pos < ((c :: s).take (k + 1)).length := by
        rw [List.length_take]
        omega
      rw [Code.shadow_of_region code later inside (List.cons_ne_nil c s),
        Layout.inPart_of_lt id ((c :: s).take (k + 1)) _ within]
      rfl
    · obtain ⟨r, rfl⟩ := Nat.exists_eq_add_of_le past
      have place := Layout.inPart_of_add id ((c :: s).take (k + 1))
        (layout Matcher.empty false (s.drop k)) r
      rw [id_eq, List.length_take_of_le (by omega)] at place
      rw [← List.getElem?_drop] at here
      rw [Code.shadow_past_region code, Option.isSome_map, place]
      exact ih (literals_drop (k + 1) literals) here
  | case3 lineStart c s region block found ih =>
    rw [blockAt?_empty] at found
    cases found
  | case4 lineStart c s region none n =>
    rename_i ih
    have code : Code.regionLength? lineStart (c :: s) = .none := codeLength?_eq_none region
    obtain ⟨long, _⟩ := List.getElem?_eq_some_iff.mp here
    obtain ⟨k, stride⟩ := Code.plainLength_cons c s
    have size : n = k + 1 := stride
    rw [size] at ih
    rw [layout_of_plain region none stride]
    rcases Nat.lt_or_ge pos (k + 1) with inside | past
    · have within : pos < ((c :: s).take (k + 1)).length := by
        rw [List.length_take]
        omega
      rw [Code.shadow_in_plain code (by omega), Layout.inPart_prepend_of_lt within]
      rfl
    · obtain ⟨r, rfl⟩ := Nat.exists_eq_add_of_le past
      have place := Layout.inPart_prepend id ((c :: s).take (k + 1))
        (layout Matcher.empty (c == '\n') (s.drop k)) r
      rw [List.length_take_of_le (by omega)] at place
      rw [← List.getElem?_drop] at here
      rw [Code.shadow_past_plain code (by omega), Option.isSome_map, place, stride,
        Nat.add_sub_cancel_left]
      exact ih (literals_drop (k + 1) literals) here

/-- Where no literal block opens and nothing is guarded, code covers the angle brackets that
stripping takes out, and no others. -/
theorem shadow_iff_removed {s : Text}
    (literals : Text.contains ('<' :: literalName) (Text.lower s) = false) :
    (layout Matcher.empty true s).text id = s ∧
    (layout Matcher.empty true s).gaps = strip Matcher.empty true s ∧
      ∀ pos, s[pos]? = some '<' →
        ((Code.shadow true s pos).isSome = true ↔
          (layout Matcher.empty true s).inPart id pos = true) := by
  have closed : ∀ a b, s = a ++ b → literalLength? b = none := by
    rintro a b rfl
    rw [literalLength?, Text.afterLower?_of_not_contains literals]
  refine ⟨text_layout Matcher.empty true s, gaps_layout Matcher.empty true s, fun pos bracket => ?_⟩
  rw [shadow_eq_inPart closed bracket (by decide)]

/-- The bracket in the span is covered and taken out, and the one behind it is neither. -/
theorem shadow_iff_removed_span :
    Text.contains ('<' :: literalName) (Text.lower "a \x60<\x60 <".toList) = false ∧
      (Code.shadow true "a \x60<\x60 <".toList 3).isSome = true ∧
      (layout Matcher.empty true "a \x60<\x60 <".toList).inPart id 3 = true ∧
      ¬ (Code.shadow true "a \x60<\x60 <".toList 6).isSome = true ∧
      ¬ (layout Matcher.empty true "a \x60<\x60 <".toList).inPart id 6 = true := by
  have literals : Text.contains ('<' :: literalName) (Text.lower "a \x60<\x60 <".toList) =
    false := by decide +kernel
  have agree := (shadow_iff_removed literals).2.2
  have covered : (Code.shadow true "a \x60<\x60 <".toList 3).isSome = true := by decide +kernel
  have bare : ¬ (Code.shadow true "a \x60<\x60 <".toList 6).isSome = true := by decide +kernel
  exact ⟨literals, covered, (agree 3 (by decide +kernel)).mp covered, bare,
    fun removed => bare ((agree 6 (by decide +kernel)).mpr removed)⟩

end Inert

end MarkupActions
