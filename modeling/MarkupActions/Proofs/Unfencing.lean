import Mathlib.Data.List.Basic
import MarkupActions.Payload
import MarkupActions.Proofs.Frames

/-!
# Payloads that are one fence

The scanner of code knows a fence by any number of marks from three on, and closes it with as many.
What takes the fence off a payload knows three: of a longer fence the marks that are over stay in
the payload, or nothing is taken off at all.
-/

namespace MarkupActions

open Code (tick)

/-- A text that is one fence: a run of marks with some words behind it, what is shown, and the run
again. -/
def soleFence (mark : Char) (run : Nat) (words inside : Text) : Text :=
  List.replicate run mark ++ (words ++ '\n' :: (inside ++ '\n' :: List.replicate run mark))

namespace Payload

variable {mark : Char} {run : Nat} {words inside front back : Text}

theorem dark_of_known (known : mark = tick ∨ mark = '~') :
    Text.isBlank mark = false ∧ '\n' ≠ mark := by
  rcases known with rfl | rfl <;> decide

/-- The scanner of code takes all of the fence for one region, however long its marks are. -/
theorem fenceLength?_soleFence (known : mark = tick ∨ mark = '~') (long : 3 ≤ run)
    (one : '\n' ∉ words)
    (plain : mark ∉ words) (few : ¬ List.replicate 3 mark <:+: inside) :
    Code.fenceLength? (soleFence mark run words inside) = some
      (soleFence mark run words inside).length := by
  have opens := @Code.fence?_row mark run 0 words known (by decide) long plain
  have single : '\n' ∉ List.replicate run mark := by simp [(dark_of_known known).2]
  have rows : Text.rows (inside ++ '\n' :: List.replicate run mark) = Text.rows inside ++
    [List.replicate run mark] := by
    rw [Text.rows_append_newline, Text.rows_eq_singleton single]
  have stays : Code.StaysOpen mark run (inside ++ '\n' :: List.replicate run mark) := by
    rw [Code.StaysOpen, rows, List.dropLast_concat]
    intro row listed
    refine Bool.eq_false_iff.mpr fun closes => few ?_
    have three : List.replicate 3 mark <+: List.replicate run mark := by
      obtain ⟨n, rfl⟩ := Nat.exists_eq_add_of_le long
      rw [List.replicate_add]
      exact List.prefix_append _ _
    exact (three.isInfix.trans (Code.marks_of_closesFence closes)).trans
      (Text.infix_of_mem_rows listed)
  have found := Code.fenceLength?_of_open opens (by simp [one, single]) stays
  have whole : soleFence mark run words inside =
    (List.replicate 0 ' ' ++ (List.replicate run mark ++ words)) ++
      '\n' :: (inside ++ '\n' :: List.replicate run mark) := by
    simp [soleFence]
  rw [whole, found]
  simp
  omega

/-- The rows behind the first are what follows its newline. -/
theorem afterRow?_append {row : Text} (one : '\n' ∉ row) (s : Text) :
    afterRow? (row ++ '\n' :: s) = some s := by
  induction row with
  | nil => simp [afterRow?]
  | cons c row ih =>
    simp only [List.mem_cons, not_or] at one
    simp [afterRow?, Ne.symm one.1, ih one.2]

theorem beforeSuffix?_append (s t : Text) : Text.beforeSuffix? t (s ++ t) = some s := by
  have cut : t.reverse.isPrefixOf? (s ++ t).reverse = some s.reverse := by
    rw [List.reverse_append]
    exact List.isPrefixOf?_eq_some_iff_append_eq.mpr rfl
  rw [Text.beforeSuffix?, cut, Option.map_some, List.reverse_reverse]

/-- White space around a fence is no part of it. -/
theorem trim_soleFence (known : mark = tick ∨ mark = '~') (long : 3 ≤ run)
    (before : ∀ c ∈ front, Text.isBlank c = true)
    (behind : ∀ c ∈ back, Text.isBlank c = true) :
    Text.trim (front ++ (soleFence mark run words inside ++ back)) =
      soleFence mark run words inside := by
  obtain ⟨n, rfl⟩ := Nat.exists_eq_add_of_le' (Nat.le_trans (by decide : 1 ≤ 3) long)
  have dark := (dark_of_known known).1
  apply Text.trim_append before behind
  · simp [soleFence]
  · simp [soleFence, List.replicate_succ, dark]
  · simp [soleFence, List.replicate_succ', dark, List.getLast?_append, List.getLast?_cons]

/-- What three marks on either side leave of a fence: the inside, and behind it what is left of the
closing run. -/
theorem unfence?_eq (known : mark = tick ∨ mark = '~') (long : 3 ≤ run) (one : '\n' ∉ words)
    (before : ∀ c ∈ front, Text.isBlank c = true) (behind : ∀ c ∈ back, Text.isBlank c = true) :
    unfence? (front ++ (soleFence mark run words inside ++ back)) =
      if Text.contains (List.replicate 3 mark)
        (inside ++ '\n' :: List.replicate (run - 3) mark) then none
      else some ((Text.beforeSuffix? ['\n'] (inside ++ '\n' :: List.replicate (run - 3) mark)).getD
        (inside ++ '\n' :: List.replicate (run - 3) mark)) := by
  obtain ⟨n, rfl⟩ := Nat.exists_eq_add_of_le' long
  have trimmed : Text.trim (front ++ (soleFence mark (n + 3) words inside ++ back)) =
      soleFence mark (n + 3) words inside := trim_soleFence known long before behind
  have marks : List.replicate 3 mark = [mark, mark, mark] := rfl
  have head : (soleFence mark (n + 3) words inside).head? = some mark := by
    simp [soleFence, List.replicate_succ]
  have opens : [mark, mark, mark].isPrefixOf (soleFence mark (n + 3) words inside) = true := by
    simp [soleFence, List.replicate_succ]
  have kind : ¬ ((mark ≠ tick ∧ mark ≠ '~') ∨ (!true) = true) := by
    rintro (other | never)
    · exact known.elim other.1 other.2
    · cases never
  have row : '\n' ∉ List.replicate (n + 3) mark ++ words := by simp [(dark_of_known known).2, one]
  have later := afterRow?_append row (inside ++ '\n' :: List.replicate (n + 3) mark)
  have split : inside ++ '\n' :: List.replicate (n + 3) mark =
      (inside ++ '\n' :: List.replicate n mark) ++ [mark, mark, mark] := by
    rw [List.replicate_add, marks]
    simp
  have cut := beforeSuffix?_append (inside ++ '\n' :: List.replicate n mark) [mark, mark, mark]
  rw [List.append_assoc] at later
  rw [← split] at cut
  simp only [unfence?, trimmed, head, opens, if_neg kind, Option.bind_eq_bind, Option.bind_some,
    Nat.add_sub_cancel, marks]
  rw [soleFence, later]
  simp only [Option.bind_some, cut]

theorem contains_rest (few : ¬ List.replicate 3 mark <:+: inside) (other : '\n' ≠ mark) (n : Nat) :
    Text.contains (List.replicate 3 mark) (inside ++ '\n' :: List.replicate n mark) = true ↔
      3 ≤ n := by
  rw [Text.contains_iff_within]
  constructor
  · intro within
    rcases Text.infix_append_cons (by simp [other]) within with early | late
    · exact False.elim (few early)
    · have bound := late.length_le
      rwa [List.length_replicate, List.length_replicate] at bound
  · intro many
    obtain ⟨m, rfl⟩ := Nat.exists_eq_add_of_le many
    rw [List.replicate_add]
    exact ⟨inside ++ ['\n'], List.replicate m mark, by simp⟩

theorem beforeSuffix?_rest (other : '\n' ≠ mark) (n : Nat) :
    (Text.beforeSuffix? ['\n'] (inside ++ '\n' :: List.replicate n mark)).getD
        (inside ++ '\n' :: List.replicate n mark) =
      if n = 0 then inside else inside ++ '\n' :: List.replicate n mark := by
  cases n with
  | zero =>
    have cut := beforeSuffix?_append inside ['\n']
    simp [cut]
  | succ n =>
    have last : (inside ++ '\n' :: List.replicate (n + 1) mark).reverse =
        mark :: (List.replicate n mark ++ '\n' :: inside.reverse) := by
      simp [List.replicate_succ']
    have none : Text.beforeSuffix? ['\n'] (inside ++ '\n' :: List.replicate (n + 1) mark) =
      Option.none := by
      rw [Text.beforeSuffix?, last]
      simp [List.isPrefixOf?, other]
    simp [none]

/-- A fence is one code region however long its marks are, and a payload that is one is its inside
if they are three. Of four and five marks what is over stays behind the inside, and from six on the
payload stays as it is. -/
theorem unfence?_soleFence (known : mark = tick ∨ mark = '~') (long : 3 ≤ run) (one : '\n' ∉ words)
    (plain : mark ∉ words) (few : ¬ List.replicate 3 mark <:+: inside)
    (before : ∀ c ∈ front, Text.isBlank c = true)
    (behind : ∀ c ∈ back, Text.isBlank c = true) :
    Code.fenceLength? (soleFence mark run words inside) = some
      (soleFence mark run words inside).length ∧
      unfence? (front ++ (soleFence mark run words inside ++ back)) =
        if run = 3 then some inside
        else if run < 6 then some (inside ++ '\n' :: List.replicate (run - 3) mark)
        else none := by
  constructor
  · exact fenceLength?_soleFence known long one plain few
  · have other := (dark_of_known known).2
    have cut := @unfence?_eq mark run words inside front back known long one before behind
    rw [beforeSuffix?_rest other] at cut
    rw [cut]
    by_cases three : run = 3
    · have short : ¬ Text.contains (List.replicate 3 mark)
        (inside ++ '\n' :: List.replicate (run - 3) mark) = true := by
        rw [contains_rest few other]
        omega
      rw [if_neg short, if_pos (by omega), if_pos three]
    · rw [if_neg three]
      by_cases short : run < 6
      · have apart : ¬ Text.contains (List.replicate 3 mark)
          (inside ++ '\n' :: List.replicate (run - 3) mark) = true := by
          rw [contains_rest few other]
          omega
        rw [if_neg apart, if_neg (by omega), if_pos short]
      · rw [if_pos ((contains_rest few other _).mpr (by omega)), if_neg short]

/-- A listing of three tildes with white space around it and two of them in a row inside. -/
theorem unfence?_listing :
    ('~' = tick ∨ '~' = '~') ∧ 3 ≤ 3 ∧ '\n' ∉ "lean".toList ∧ '~' ∉ "lean".toList ∧
      ¬ List.replicate 3 '~' <:+: "a ~~ b\n".toList ∧ (∀ c ∈ [' ', '\n'], Text.isBlank c = true) ∧
      (∀ c ∈ ['\n', '\t'], Text.isBlank c = true) ∧
      unfence? ([' ', '\n'] ++ (soleFence '~' 3 "lean".toList "a ~~ b\n".toList ++ ['\n', '\t'])) =
        some "a ~~ b\n".toList := by
  have known : '~' = tick ∨ '~' = '~' := .inr rfl
  have one : '\n' ∉ "lean".toList := by decide
  have plain : '~' ∉ "lean".toList := by decide
  have few : ¬ List.replicate 3 '~' <:+: "a ~~ b\n".toList := by decide +kernel
  have before : ∀ c ∈ [' ', '\n'], Text.isBlank c = true := by decide
  have behind : ∀ c ∈ ['\n', '\t'], Text.isBlank c = true := by decide
  have taken := (unfence?_soleFence known (Nat.le_refl 3) one plain few before behind).2
  rw [if_pos rfl] at taken
  exact ⟨known, Nat.le_refl 3, one, plain, few, before, behind, taken⟩

/-- A fence of four marks leaves one of them behind what is shown. -/
theorem long_fence_matters : ¬ ∀ (mark : Char) (run : Nat)
    (words inside : Text), (mark = tick ∨ mark = '~') → 3 ≤ run →
    '\n' ∉ words → mark ∉ words → ¬ List.replicate 3 mark <:+: inside →
      unfence? (soleFence mark run words inside) = some inside := by
  intro whole
  have kept := whole tick 4 [] ['a'] (.inl rfl) (by decide) (by decide) (by decide) (by decide)
  have cut : unfence? (soleFence tick 4 [] ['a']) = some ['a', '\n', tick] := by decide
  rw [cut] at kept
  revert kept
  decide

end Payload

end MarkupActions
