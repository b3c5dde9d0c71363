import MarkupActions.Block.Extent
import MarkupActions.Proofs.Regions

/-!
# What covers a place

A place is covered by the code region it stands in, and in a content block by an unfinished hunk.
Whether it is covered is decided by what stands before it, so far as the rows before it are
complete; what a region reaches into may still move its end.
-/

namespace MarkupActions

open Code (tick)

namespace Code

variable {lineStart : Bool}

theorem shadow_zero (s : Text) : shadow lineStart s 0 = none := by
  rw [shadow]

/-- What stands in a region is covered up to its end. -/
theorem shadow_of_region {s : Text} {n p : Nat} (found : regionLength? lineStart s = some n)
    (inside : 0 < p)
    (before : p < n) (more : s ≠ []) : shadow lineStart s p = some n := by
  obtain ⟨c, s, rfl⟩ := List.exists_cons_of_ne_nil more
  obtain ⟨p, rfl⟩ : ∃ q, p = q + 1 := ⟨p - 1, by omega⟩
  rw [shadow, found]
  simp [before]

theorem regionLength?_pos {s : Text} {n : Nat} (found : regionLength? lineStart s = some n) :
    0 < n := by
  have span : ∀ n, spanLength? s = some n → 0 < n := by
    intro n found
    unfold spanLength? at found
    simp only at found
    split at found
    · cases found
    · obtain ⟨k, _, rfl⟩ := Option.map_eq_some_iff.mp found
      omega
  have fence : ∀ n, fenceLength? s = some n → 0 < n := by
    intro n found
    obtain ⟨line, lines, whole⟩ := Text.exists_first_row s
    rw [fenceLength?, whole] at found
    obtain ⟨⟨mark, run⟩, opens, rfl⟩ := Option.map_eq_some_iff.mp found
    cases line with
    | nil => cases opens
    | cons c line =>
      show 0 < if lines.isEmpty then (c :: line).length
        else (c :: line).length + 1 + fencedLength mark run lines
      rw [List.length_cons]
      split <;> omega
  unfold regionLength? at found
  split at found
  · rename_i k here
    rw [← Option.some.inj found]
    cases lineStart with
    | false => cases here
    | true => exact fence k here
  · exact span n found

theorem shadow_nil (lineStart : Bool) (p : Nat) : shadow lineStart [] p = none := by
  cases p <;> rw [shadow]

/-- Behind a region the walk goes on. -/
theorem shadow_past_region {s : Text} {n : Nat} (found : regionLength? lineStart s = some n)
    (r : Nat) :
    shadow lineStart s (n + r) = (shadow false (s.drop n) r).map (n + ·) := by
  have pos := regionLength?_pos found
  obtain ⟨n, rfl⟩ := Nat.exists_eq_add_one_of_ne_zero (Nat.ne_of_gt pos)
  cases s with
  | nil => simp [shadow_nil]
  | cons c s =>
    have place : n + 1 + r = (n + r) + 1 := by omega
    have past : ¬ n + r + 1 < n + 1 := by omega
    have left : n + r + 1 - (n + 1) = r := by omega
    rw [place, shadow, found]
    simp only [past, if_false, left, Nat.add_sub_cancel, List.drop_succ_cons]

theorem plainLength_cons (c : Char) (s : Text) : ∃ n, plainLength (c :: s) = n + 1 := by
  rw [plainLength]
  split
  · exact ⟨_, rfl⟩
  · exact ⟨0, rfl⟩

/-- Where no region opens nothing is covered up to where the walk goes on. -/
theorem shadow_past_plain {s : Text} (plain : regionLength? lineStart s = none) {p : Nat}
    (positive : 0 < p) :
    shadow lineStart s p = (shadow (s.head? == some '\n') (s.drop (plainLength s))
      (p - plainLength s)).map
      (plainLength s + ·) := by
  obtain ⟨p, rfl⟩ := Nat.exists_eq_add_one_of_ne_zero (Nat.ne_of_gt positive)
  cases s with
  | nil => simp [shadow_nil]
  | cons c s =>
    obtain ⟨n, size⟩ := plainLength_cons c s
    rw [shadow, plain]
    simp [size]

theorem shadow_in_plain {s : Text} (plain : regionLength? lineStart s = none) {p : Nat}
    (inside : p ≤ plainLength s) :
    shadow lineStart s p = none := by
  rcases Nat.eq_zero_or_pos p with rfl | positive
  · exact shadow_zero s
  · rw [shadow_past_plain plain positive, Nat.sub_eq_zero_of_le inside, shadow_zero]
    rfl

theorem shadow_after_region {front s : Text} {p : Nat}
    (found : regionLength? lineStart (front ++ s) = some front.length) :
    shadow lineStart (front ++ s) (front.length + p) = (shadow false s p).map
      (front.length + ·) := by
  have step := shadow_past_region found p
  rwa [List.drop_left] at step

theorem shadow_after_plain {front s : Text} {p : Nat}
    (plain : regionLength? lineStart (front ++ s) = none)
    (size : plainLength (front ++ s) = front.length) (more : front ≠ []) :
    shadow lineStart (front ++ s) (front.length + p) =
      (shadow (front.head? == some '\n') s p).map (front.length + ·) := by
  have positive := List.length_pos_of_ne_nil more
  have step := shadow_past_plain plain (p := front.length + p) (by omega)
  rwa [size, List.drop_left, Nat.add_sub_cancel_left, List.head?_append_of_ne_nil _ more] at step

/-- Without backticks, and where no fence opens, a text covers nothing of what follows it. -/
theorem shadow_append {v s : Text} (ticks : tick ∉ v)
    (unfenced : ∀ a b, v = a ++ b → b ≠ [] → startsRow lineStart a = true →
      fenceLength? (b ++ s) = none) (p : Nat) :
    shadow lineStart (v ++ s) (v.length + p) = (shadow (startsRow lineStart v) s p).map
      (v.length + ·) := by
  induction v generalizing lineStart with
  | nil => simp [startsRow]
  | cons c v ih =>
    simp only [List.mem_cons, not_or] at ticks
    have here := unfenced [] (c :: v) rfl (by simp)
    have region : regionLength? lineStart ([c] ++ (v ++ s)) = none := by
      have span := spanLength?_of_ne (Ne.symm ticks.1) (v ++ s)
      cases lineStart with
      | false => simpa [regionLength?] using span
      | true =>
        have fence : fenceLength? (c :: (v ++ s)) = none := here rfl
        simp [regionLength?, fence, span]
    have size : plainLength ([c] ++ (v ++ s)) = [c].length := by simp [plainLength, Ne.symm ticks.1]
    have first := shadow_after_plain (p := v.length + p) region size (by simp)
    have rest := @ih (c == '\n') ticks.2 fun a b split more start =>
      unfenced (c :: a) b (by rw [split]; rfl) more (by rwa [startsRow_cons])
    have place : (c :: v).length + p = [c].length + (v.length + p) := by
      simp
      omega
    have passed : ((fun n => [c].length + n) ∘ fun n => v.length + n) = fun n =>
      (c :: v).length + n := by
      funext n
      simp
      omega
    have flag : ([c].head? == some '\n') = (c == '\n') := by simp
    rw [flag, rest, Option.map_map, passed] at first
    rw [place, startsRow_cons]
    exact first

theorem shadow_clear {v s : Text} (clear : Clear v s) (p : Nat) :
    shadow lineStart (v ++ s) (v.length + p) = (shadow (startsRow lineStart v) s p).map
      (v.length + ·) :=
  shadow_append clear.ticks (fun a b whole more _ => clear.unfenced a b whole more) p

theorem fencedLength_of_closed {mark : Char} {run : Nat} {front back back' : List Text} {row : Text}
    (inside : row ∈ front) (closes : closesFence mark run row = true) (more : back ≠ [])
    (more' : back' ≠ []) :
    fencedLength mark run (front ++ back) = fencedLength mark run (front ++ back') ∧
      fencedLength mark run (front ++ back) + 1 ≤ Text.rowsLength front := by
  induction front with
  | nil => cases inside
  | cons first front ih =>
    have unfold' : ∀ back : List Text, back ≠ [] → fencedLength mark run (first :: front ++ back) =
        if closesFence mark run first then first.length
        else first.length + 1 + fencedLength mark run (front ++ back) := by
      intro back more
      obtain ⟨second, others, whole⟩ := List.exists_cons_of_ne_nil
        (List.append_ne_nil_of_right_ne_nil front more)
      rw [List.cons_append, whole, fencedLength]
      simp
    rw [unfold' back more, unfold' back' more']
    by_cases here : closesFence mark run first
    · simp [here]
    · have later : row ∈ front := by
        rcases List.mem_cons.mp inside with rfl | later
        · exact False.elim (here closes)
        · exact later
      obtain ⟨same, bound⟩ := ih later
      simp only [here, Bool.false_eq_true, if_false, same, Text.rowsLength_cons, true_and]
      omega

theorem fencedLength_pos {mark : Char} {run : Nat} {s : Text} (more : s ≠ []) (marks : 0 < run) :
    0 < fencedLength mark run (Text.rows s) := by
  obtain ⟨first, back, whole⟩ := Text.exists_first_row s
  have size := Text.length_rows s
  rw [whole] at size ⊢
  cases back with
  | nil =>
    simp only [Text.rowsLength_cons, Text.rowsLength_nil] at size
    have pos := List.length_pos_of_ne_nil more
    simp only [fencedLength]
    omega
  | cons second back =>
    rw [fencedLength]
    · by_cases closes : closesFence mark run first
      · simp only [closes, if_true]
        cases first with
        | nil =>
          simp [closesFence, Text.trim, Text.trimStart, Text.trimEnd, Nat.ne_of_gt marks] at closes
        | cons c first => simp
      · simp only [closes, Bool.false_eq_true, if_false]
        omega
    · simp

/-- Two texts that begin alike open alike regions: the same, ended before they part, or such as
reach beyond. -/
def SameRegion (length : Nat) (first second : Option Nat) : Prop :=
  (first = second ∧ ∀ n, first = some n → n ≤ length) ∨
    ∃ n m, first = some n ∧ second = some m ∧ length + 1 < n ∧ length + 1 < m

theorem fenceLength?_sameRegion (u : Text) {s t : Text} (more : s ≠ []) (more' : t ≠ []) :
    SameRegion u.length (fenceLength? (u ++ '\n' :: s)) (fenceLength? (u ++ '\n' :: t)) := by
  obtain ⟨line, lines, whole⟩ := Text.exists_first_row u
  have size := Text.length_rows u
  rw [whole, Text.rowsLength_cons] at size
  have value : ∀ s, fenceLength? (u ++ '\n' :: s) =
      (fence? line).map fun found => line.length + 1 + fencedLength found.1 found.2
        (lines ++ Text.rows s) := by
    intro s
    have rest : (lines ++ Text.rows s).isEmpty = false := by
      simp [Text.rows_ne_nil]
    rw [fenceLength?, Text.rows_append_newline, whole]
    simp [rest]
  rw [value, value]
  cases opens : fence? line with
  | none => exact .inl ⟨rfl, by simp⟩
  | some found =>
    obtain ⟨mark, run⟩ := found
    have marks : 0 < run := by
      have := (fence?_inv opens).1
      omega
    by_cases closes : ∃ row ∈ lines, closesFence mark run row = true
    · obtain ⟨row, inside, closes⟩ := closes
      obtain ⟨same, bound⟩ :=
        fencedLength_of_closed inside closes (Text.rows_ne_nil s) (Text.rows_ne_nil t)
      left
      simp only [Option.map_some, same, true_and, Option.some.injEq]
      rintro n rfl
      omega
    · right
      have stays : ∀ row ∈ lines, closesFence mark run row = false := by
        intro row inside
        cases closed : closesFence mark run row with
        | false => rfl
        | true => exact False.elim (closes ⟨row, inside, closed⟩)
      have pos : 0 < fencedLength mark run (Text.rows s) := fencedLength_pos more marks
      have pos' : 0 < fencedLength mark run (Text.rows t) := fencedLength_pos more' marks
      have sum := fencedLength_append stays (Text.rows_ne_nil s)
      have sum' := fencedLength_append stays (Text.rows_ne_nil t)
      refine ⟨_, _, rfl, rfl, ?_, ?_⟩
      · show u.length + 1 < line.length + 1 + fencedLength mark run (lines ++ Text.rows s)
        omega
      · show u.length + 1 < line.length + 1 + fencedLength mark run (lines ++ Text.rows t)
        omega

theorem spanEnd?_newline {run seen : Nat} (u s t : Text) :
    spanEnd? run seen (u ++ '\n' :: s) = spanEnd? run seen (u ++ '\n' :: t) ∧
      ∀ n, spanEnd? run seen (u ++ '\n' :: s) = some n → n ≤ u.length := by
  induction u generalizing seen with
  | nil =>
    have other : ('\n' : Char) ≠ tick := by decide
    by_cases done : seen = run
    · simp [spanEnd?, other, done]
    · simp [spanEnd?, other, done]
  | cons c u ih =>
    by_cases mark : c = tick
    · obtain ⟨same, bound⟩ := @ih (seen + 1)
      simp only [List.cons_append, spanEnd?, mark, if_true, same, true_and, Option.map_eq_some_iff,
        List.length_cons]
      rintro n ⟨k, found, rfl⟩
      have := bound k (same.trans found)
      omega
    · by_cases done : seen = run
      · simp [spanEnd?, mark, done]
      · by_cases newline : c = '\n'
        · subst newline
          simp [spanEnd?, mark, done]
        · obtain ⟨same, bound⟩ := @ih 0
          simp only [List.cons_append, spanEnd?, mark, done, newline, if_false, same, true_and,
            Option.map_eq_some_iff, List.length_cons]
          rintro n ⟨k, found, rfl⟩
          have := bound k (same.trans found)
          omega

theorem runLength_le (mark : Char) (s : Text) : runLength mark s ≤ s.length :=
  (List.takeWhile_sublist _).length_le

theorem runLength_word {mark : Char} {w : Text} (other : w.head? ≠ some mark) (more : w ≠ [])
    (a b : Text) :
    runLength mark (a ++ (w ++ b)) = runLength mark a := by
  induction a with
  | nil =>
    obtain ⟨c, t, rfl⟩ := List.exists_cons_of_ne_nil more
    exact runLength_cons_of_ne (by simpa using other) (t ++ b)
  | cons c a ih =>
    by_cases marked : c = mark
    · subst marked
      simpa [runLength] using ih
    · rw [List.cons_append, runLength_cons_of_ne marked, runLength_cons_of_ne marked]

/-- How far the walk goes where no region opens is told by what stands in front of a word. -/
theorem plainLength_word {a w : Text} (other : w.head? ≠ some tick) (word : w ≠ []) (more : a ≠ [])
    (b : Text) :
    plainLength (a ++ (w ++ b)) = plainLength a ∧ 0 < plainLength a ∧ plainLength a ≤ a.length := by
  obtain ⟨c, a, rfl⟩ := List.exists_cons_of_ne_nil more
  have run := runLength_word other word a b
  have short := runLength_le tick a
  by_cases marked : c = tick
  · simp only [List.cons_append, plainLength, marked, if_true, run, List.length_cons, true_and]
    omega
  · simp [plainLength, marked]

theorem spanLength?_newline (u s t : Text) :
    spanLength? (u ++ '\n' :: s) = spanLength? (u ++ '\n' :: t) ∧
      ∀ n, spanLength? (u ++ '\n' :: s) = some n → n ≤ u.length := by
  have short := runLength_le tick u
  have run : ∀ s, runLength tick (u ++ '\n' :: s) = runLength tick u :=
    runLength_word (w := ['\n']) (by decide) (by decide) u
  simp only [spanLength?, run, List.drop_append_of_le_length short]
  by_cases none : runLength tick u = 0
  · simp [none]
  · obtain ⟨same, bound⟩ := @spanEnd?_newline (runLength tick u) 0 (u.drop (runLength tick u)) s t
    simp only [none, if_false, same, true_and, Option.map_eq_some_iff]
    rintro n ⟨k, found, rfl⟩
    have := bound k (same.trans found)
    simp only [List.length_drop] at this
    omega

theorem regionLength?_sameRegion (lineStart : Bool) (u : Text) {s t : Text} (more : s ≠ [])
    (more' : t ≠ []) :
    SameRegion u.length (regionLength? lineStart (u ++ '\n' :: s))
      (regionLength? lineStart (u ++ '\n' :: t)) := by
  have span := spanLength?_newline u s t
  cases lineStart with
  | false => exact .inl (by simpa [regionLength?] using span)
  | true =>
    rcases fenceLength?_sameRegion u more more' with
      ⟨same, bound⟩ | ⟨n, m, first, second, past, past'⟩
    · left
      simp only [regionLength?, if_true]
      cases fence : fenceLength? (u ++ '\n' :: s) with
      | none => simpa [← same, fence] using span
      | some n => simpa [← same, fence] using bound n fence
    · exact .inr
        ⟨n, m, by simp [regionLength?, first], by simp [regionLength?, second], past, past'⟩

/-- Whether the beginning of a row is covered does not depend on what the row holds, if it is not
empty. -/
theorem shadow_newline {u s t : Text} (more : s ≠ []) (more' : t ≠ [])
    (bare : shadow lineStart (u ++ '\n' :: s) (u.length + 1) = none) :
    shadow lineStart (u ++ '\n' :: t) (u.length + 1) = none := by
  induction size : u.length using Nat.strongRecOn generalizing u lineStart with
  | ind size ih =>
    subst size
    -- Both texts are passed over in equal strides as far as they are the same.
    have stride : ∀ n, 0 < n → n ≤ u.length → ∃ front u', u = front ++ u' ∧ front.length = n ∧
      front ≠ [] ∧
        u'.length < u.length ∧ u.length + 1 = front.length + (u'.length + 1) := by
      intro n pos bound
      refine ⟨u.take n, u.drop n, (List.take_append_drop n u).symm, by simp [bound], ?_, ?_, ?_⟩
      · intro empty
        have := congrArg List.length empty
        simp only [List.length_take, List.length_nil] at this
        omega
      · simp only [List.length_drop]
        omega
      · simp only [List.length_take, List.length_drop]
        omega
    rcases regionLength?_sameRegion lineStart u more more' with
      ⟨same, bound⟩ | ⟨n, m, first, second, past, _⟩
    · cases region : regionLength? lineStart (u ++ '\n' :: s) with
      | some n =>
        obtain ⟨front, u', rfl, rfl, some', less, place⟩ :=
          stride n (regionLength?_pos region) (bound n region)
        rw [region] at same
        rw [List.append_assoc] at region bare same ⊢
        rw [place, shadow_after_region region, Option.map_eq_none_iff] at bare
        rw [place, shadow_after_region same.symm, Option.map_eq_none_iff]
        exact ih u'.length less bare rfl
      | none =>
        by_cases empty : u = []
        · subst empty
          have plain : regionLength? lineStart (['\n'] ++ t) = none :=
            regionLength?_of_calm (calm_cons (by decide) t) (by simp [tick])
          have passed := shadow_after_plain (p := 0) plain (by rfl) (by simp)
          rw [shadow_zero] at passed
          exact passed
        · have next : ∀ s, plainLength (u ++ '\n' :: s) = plainLength u ∧ 0 < plainLength u ∧
            plainLength u ≤ u.length :=
            plainLength_word (w := ['\n']) (by decide) (by decide) empty
          obtain ⟨equal, pos, short⟩ := next s
          have equal' := (next t).1
          obtain ⟨front, u', rfl, size, some', less, place⟩ := stride _ pos short
          rw [region] at same
          rw [List.append_assoc] at region bare same equal equal' ⊢
          rw [place, shadow_after_plain region (equal.trans size.symm) some',
            Option.map_eq_none_iff] at bare
          rw [place, shadow_after_plain same.symm (equal'.trans size.symm) some',
            Option.map_eq_none_iff]
          exact ih u'.length less bare rfl
    · rw [shadow_of_region first (by omega) past (by simp)] at bare
      cases bare

end Code

namespace Hunk

theorem count_append_ge (marker? : Text → Option Nat) (v u : Text) :
    count marker? u ≤ count marker? (v ++ u) := by
  induction v with
  | nil => exact Nat.le_refl _
  | cons c v ih =>
    rw [List.cons_append, count]
    omega

theorem opening?_of_ne {c : Char} (other : c ≠ '<') (s : Text) : opening? (c :: s) = none := by
  simp [opening?, markerLength?, List.isPrefixOf?, List.replicate, Ne.symm other]

theorem count_opening_append {v : Text} (tags : '<' ∉ v) (u : Text) :
    count opening? (v ++ u) = count opening? u := by
  induction v with
  | nil => rfl
  | cons c v ih =>
    simp only [List.mem_cons, not_or] at tags
    rw [List.cons_append, count, opening?_of_ne (Ne.symm tags.1), ih tags.2]
    simp

theorem shadow_eq_none {u s : Text} :
    shadow (u ++ s) u.length = none ↔ count opening? u ≤ count finish? u := by
  simp [shadow]

end Hunk

theorem shadow_content_eq_none {body : Text} {pos : Nat} :
    shadow .content body pos = none ↔ Code.shadow false body pos = none ∧
      Hunk.shadow body pos = none := by
  unfold shadow
  cases Code.shadow false body pos with
  | none => simp
  | some stop => simp

/-- The end of a payload of whole rows is covered or not, whatever stands after it and in the tag
before it. -/
theorem shadow_payload {payload v s t : Text} (rows : payload.getLast? = some '\n') (more : s ≠ [])
    (more' : t ≠ [])
    (tags : '<' ∉ v) (ticks : tick ∉ v) (one : '\n' ∉ v)
    (bare : shadow .content (payload ++ s) payload.length = none) :
    shadow .content (v ++ (payload ++ t)) (v.length + payload.length) = none := by
  rw [shadow_content_eq_none] at bare ⊢
  obtain ⟨code, hunk⟩ := bare
  have never : ∀ a b, v = a ++ b → startsRow false a = false := by
    rintro a b rfl
    exact startsRow_of_one (fun inside => one (List.mem_append_left b inside)) fun _ => rfl
  constructor
  · have unfenced : ∀ a b, v = a ++ b → b ≠ [] → startsRow false a = true →
        Code.fenceLength? (b ++ (payload ++ t)) = none := by
      intro a b whole _ start
      rw [never a b whole] at start
      cases start
    rw [Code.shadow_append ticks unfenced, never v [] (by simp), Option.map_eq_none_iff]
    obtain ⟨u, rfl⟩ : ∃ u, payload = u ++ ['\n'] := List.getLast?_eq_some_iff.mp rows
    simp only [List.append_assoc, List.singleton_append, List.length_append, List.length_singleton]
      at code ⊢
    exact Code.shadow_newline more more' code
  · rw [Hunk.shadow_eq_none] at hunk
    have place : v.length + payload.length = (v ++ payload).length := by simp
    rw [← List.append_assoc, place, Hunk.shadow_eq_none, Hunk.count_opening_append tags]
    exact Nat.le_trans hunk (Hunk.count_append_ge _ v payload)

end MarkupActions
