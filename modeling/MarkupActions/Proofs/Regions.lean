import Mathlib.Data.List.TakeWhile
import MarkupActions.Inert
import MarkupActions.Proofs.Layouts
import MarkupActions.Proofs.Letters

/-!
# Inert regions

The extent of a fenced block, of an inline span and of a literal block, each given by what its
content may not hold, and the prose between them, in which no region opens. Everything is said of a
text that goes on after the region, since what follows decides where some of them end.
-/

namespace MarkupActions

open Code (tick)

namespace Code

/-- No row but the last closes a fence. -/
def StaysOpen (mark : Char) (run : Nat) (s : Text) : Prop :=
  ∀ row ∈ (Text.rows s).dropLast, closesFence mark run row = false

theorem closesFence_of_mem {c mark : Char} {run : Nat} {row : Text} (inside : c ∈ row)
    (dark : Text.isBlank c = false) (other : c ≠ mark) : closesFence mark run row = false := by
  have kept := Text.mem_trim inside dark
  have fails : (Text.trim row).all (· == mark) = false := by
    rw [List.all_eq_false]
    exact ⟨c, kept, by simpa using other⟩
  simp [closesFence, fails]

/-- A run of three or more marks opens a fence of as many, if the words behind it hold none. -/
theorem fence?_row {mark : Char} {run indent : Nat} {words : Text}
    (known : mark = tick ∨ mark = '~')
    (shallow : indent ≤ 3) (long : 3 ≤ run) (plain : mark ∉ words) :
    fence? (List.replicate indent ' ' ++ (List.replicate run mark ++ words)) = some
      (mark, run) := by
  obtain ⟨n, rfl⟩ := Nat.exists_eq_add_of_le' (Nat.le_trans (by decide : 1 ≤ 3) long)
  have space : mark ≠ ' ' := by rcases known with rfl | rfl <;> decide
  have past : (List.replicate indent ' ' ++ (List.replicate (n + 1) mark ++ words)).dropWhile
    (· == ' ') =
      mark :: (List.replicate n mark ++ words) := by
    have spaces : ∀ c ∈ List.replicate indent ' ', (c == ' ') = true := by simp
    rw [List.dropWhile_append_of_pos spaces, List.replicate_succ]
    simp [space]
  have counted : runLength mark (mark :: (List.replicate n mark ++ words)) = n + 1 := by
    have marks : ∀ c ∈ List.replicate (n + 1) mark, (c == mark) = true := by simp
    have stop : words.head?.any (· == mark) = false := by
      cases words with
      | nil => rfl
      | cons c words =>
        simp only [List.mem_cons, not_or] at plain
        simpa using Ne.symm plain.1
    have cut := Text.takeWhile_exact marks stop
    rw [List.replicate_succ] at cut
    rw [runLength, ← List.cons_append, cut]
    simp
  have spaces : (List.replicate indent ' ' ++ (List.replicate (n + 1) mark ++ words)).length -
      (mark :: (List.replicate n mark ++ words)).length = indent := by
    simp only [List.length_append, List.length_replicate, List.length_cons]
    omega
  have few : ¬ 3 < indent := by omega
  have enough : ¬ n + 1 < 3 := by omega
  have kind : ¬ (mark ≠ tick ∧ mark ≠ '~') := fun other => known.elim other.1 other.2
  have closed : ¬ (mark = tick ∧
      Text.contains [tick, tick, tick] ((mark :: (List.replicate n mark ++ words)).drop (n + 1)) =
        true) := by
    rintro ⟨same, inside⟩
    have back : (mark :: (List.replicate n mark ++ words)).drop (n + 1) = words := by simp
    rw [back, Text.contains_iff_within] at inside
    rw [same] at plain
    exact plain (inside.subset List.mem_cons_self)
  simp only [fence?, past, spaces, counted, if_neg few, if_neg kind, if_neg enough, if_neg closed]

/-- A fence is a run of three or more backticks or tildes. -/
theorem fence?_inv {line : Text} {mark : Char} {run : Nat}
    (opens : fence? line = some (mark, run)) : 3 ≤ run ∧ (mark = tick ∨ mark = '~') := by
  unfold fence? at opens
  simp only at opens
  split at opens
  · cases opens
  · split at opens
    · cases opens
    · split at opens
      · cases opens
      · rename_i marked
        rw [not_and_or, not_not, not_not] at marked
        split at opens
        · cases opens
        · split at opens
          · cases opens
          · obtain ⟨rfl, rfl⟩ := Prod.mk.inj (Option.some.inj opens)
            exact ⟨by omega, marked⟩

/-- A row that closes a fence holds all marks of one. -/
theorem marks_of_closesFence {mark : Char} {run : Nat} {row : Text}
    (closes : closesFence mark run row = true) :
    List.replicate run mark <:+: row := by
  simp only [closesFence, Bool.and_eq_true, decide_eq_true_eq, List.all_eq_true, beq_iff_eq]
    at closes
  have whole : Text.trim row = List.replicate (Text.trim row).length mark :=
    List.eq_replicate_iff.mpr ⟨rfl, closes.2⟩
  obtain ⟨n, size⟩ := Nat.exists_eq_add_of_le closes.1
  have first : List.replicate run mark <+: Text.trim row := by
    rw [whole, size, List.replicate_add]
    exact List.prefix_append _ _
  exact first.isInfix.trans (Text.trim_infix row)

theorem fencedLength_append {mark : Char} {run : Nat} {front back : List Text}
    (stays : ∀ row ∈ front, closesFence mark run row = false) (more : back ≠ []) :
    fencedLength mark run (front ++ back) = Text.rowsLength front + fencedLength mark run back := by
  induction front with
  | nil => simp
  | cons row front ih =>
    have rest := ih fun r inside => stays r (List.mem_cons_of_mem _ inside)
    obtain ⟨first, others, whole⟩ := List.exists_cons_of_ne_nil
      (List.append_ne_nil_of_right_ne_nil front more)
    rw [List.cons_append, whole, fencedLength, ← whole, rest]
    · simp [stays row List.mem_cons_self]
      omega
    · simp

/-- A fence that no row closes before the last reaches to the end of the text. -/
theorem fenceLength?_of_open {line s : Text} {mark : Char} {run : Nat}
    (opens : fence? line = some (mark, run))
    (one : '\n' ∉ line) (stays : StaysOpen mark run s) :
    fenceLength? (line ++ '\n' :: s) = some (line.length + 1 + s.length) := by
  obtain ⟨front, last, whole⟩ := Text.exists_last_row s
  have split : Text.rows (line ++ '\n' :: s) = line :: Text.rows s := by
    rw [Text.rows_append_newline, Text.rows_eq_singleton one]
    rfl
  have more : (Text.rows s).isEmpty = false := by simpa using Text.rows_ne_nil s
  have size := Text.length_rows s
  rw [StaysOpen, whole, List.dropLast_concat] at stays
  have within := fencedLength_append stays (List.cons_ne_nil last [])
  rw [fenceLength?, split]
  simp only [opens, Option.map_some, more, Bool.false_eq_true, if_false]
  rw [whole, within]
  rw [whole] at size
  simp only [Text.rowsLength_append, Text.rowsLength_cons, Text.rowsLength_nil] at size
  simp only [fencedLength]
  congr 1
  omega

/-- What may stand after the row that closes a fence: nothing, or the next row. -/
def EndsRow (s : Text) : Prop := s = [] ∨ ∃ t, s = '\n' :: t

/-- A fence ends with the first row that closes it. -/
theorem fenceLength?_of_rows {line last s : Text} {mark : Char} {run : Nat} {front back : List Text}
    (opens : fence? line = some (mark, run)) (one : '\n' ∉ line)
    (whole : Text.rows s = front ++ last :: back)
    (stays : ∀ row ∈ front, closesFence mark run row = false)
    (closes : closesFence mark run last = true) :
    fenceLength? (line ++ '\n' :: s) = some
      (line.length + 1 + (Text.rowsLength front + last.length)) := by
  have split : Text.rows (line ++ '\n' :: s) = line :: Text.rows s := by
    rw [Text.rows_append_newline, Text.rows_eq_singleton one]
    rfl
  have more : (Text.rows s).isEmpty = false := by simpa using Text.rows_ne_nil s
  have close : fencedLength mark run (last :: back) = last.length := by
    cases back with
    | nil => rfl
    | cons row back => rw [fencedLength, if_pos closes]; simp
  rw [fenceLength?, split]
  simp only [opens, Option.map_some, more, Bool.false_eq_true, if_false]
  rw [whole, fencedLength_append stays (List.cons_ne_nil last back), close]

theorem rows_of_endsRow {last t : Text} (one : '\n' ∉ last) (ends : EndsRow t) :
    ∃ back, Text.rows (last ++ t) = last :: back := by
  rcases ends with rfl | ⟨t, rfl⟩
  · exact ⟨[], by rw [List.append_nil, Text.rows_eq_singleton one]⟩
  · exact ⟨Text.rows t, by rw [Text.rows_append_newline, Text.rows_eq_singleton one]; rfl⟩

theorem runLength_cons_of_ne {mark c : Char} (other : c ≠ mark) (s : Text) :
    runLength mark (c :: s) = 0 := by
  simp [runLength, other]

theorem spanLength?_of_ne {c : Char} (other : c ≠ tick) (s : Text) :
    spanLength? (c :: s) = none := by
  simp [spanLength?, runLength_cons_of_ne other]

/-- A row opens no fence unless it begins with a run of three marks. -/
theorem fence?_of_head {line rest : Text} {mark : Char}
    (head : line.dropWhile (· == ' ') = mark :: rest)
    (few : mark = tick ∨ mark = '~' → runLength mark (mark :: rest) < 3) : fence? line = none := by
  simp only [fence?, head]
  by_cases known : mark = tick ∨ mark = '~'
  · have short := few known
    simp [short]
  · simp only [not_or] at known
    simp [known]

theorem exists_rows_takeWhile (s : Text) :
    ∃ back, Text.rows s = s.takeWhile (· != '\n') :: back := by
  induction s with
  | nil => exact ⟨[], rfl⟩
  | cons c s ih =>
    by_cases newline : c = '\n'
    · subst newline
      exact ⟨Text.rows s, Text.rows_newline s⟩
    · obtain ⟨back, whole⟩ := ih
      refine ⟨back, ?_⟩
      rw [Text.rows_cons newline whole]
      simp [newline]

/-- No run of three marks begins a text, spaces aside. -/
def Calm (s : Text) : Prop := ∀ mark, mark = tick ∨ mark = '~' → runLength mark
    (s.dropWhile (· == ' ')) < 3

theorem dropWhile_takeWhile (s : Text) :
    (s.takeWhile (· != '\n')).dropWhile (· == ' ') = (s.dropWhile (· == ' ')).takeWhile
    (· != '\n') := by
  induction s with
  | nil => rfl
  | cons c s ih =>
    by_cases space : c = ' '
    · subst space
      simpa using ih
    · by_cases newline : c = '\n'
      · simp [newline]
      · simp [space, newline]

theorem runLength_takeWhile_le (mark : Char) (s : Text) :
    runLength mark (s.takeWhile (· != '\n')) ≤ runLength mark s := by
  induction s with
  | nil => exact Nat.le_refl _
  | cons c s ih =>
    by_cases newline : c = '\n'
    · simp [runLength, newline]
    · by_cases same : c = mark
      · subst same
        simpa [runLength, newline] using ih
      · simp [runLength, newline, same]

theorem fenceLength?_of_calm {s : Text} (calm : Calm s) : fenceLength? s = none := by
  obtain ⟨back, whole⟩ := exists_rows_takeWhile s
  have unopened : fence? (s.takeWhile (· != '\n')) = none := by
    cases head : (s.takeWhile (· != '\n')).dropWhile (· == ' ') with
    | nil => simp [fence?, head]
    | cons mark rest =>
      refine fence?_of_head head fun known => ?_
      have few := calm mark known
      have less := runLength_takeWhile_le mark (s.dropWhile (· == ' '))
      rw [← dropWhile_takeWhile, head] at less
      omega
  rw [fenceLength?, whole]
  simp [unopened]

/-- No fence opens where something dark comes before three marks do. -/
theorem calm_of_few {v s : Text} {c : Char} (ticks : tick ∉ v) (few : ¬ ['~', '~', '~'] <:+: v)
    (inside : c ∈ v)
    (other : c ≠ ' ' ∧ c ≠ '~') : Calm (v ++ s) := by
  intro mark known
  have left : c ∈ v.dropWhile (· == ' ') := Text.mem_dropWhile inside (by simpa using other.1)
  have back := List.dropWhile_suffix (l := v) (· == ' ')
  rw [List.dropWhile_append, if_neg (by simpa using List.ne_nil_of_mem left)]
  generalize v.dropWhile (· == ' ') = w at left back
  have stops : c ≠ mark := by
    rcases known with rfl | rfl
    · rintro rfl
      exact ticks (back.subset left)
    · exact other.2
  have within : runLength mark (w ++ s) = runLength mark w := by
    have short : (w.takeWhile (· == mark)).length ≠ w.length := by
      intro whole
      have same := (List.takeWhile_prefix (l := w) (· == mark)).eq_of_length whole
      rw [List.takeWhile_eq_self_iff] at same
      exact stops (by simpa using same c left)
    rw [runLength, List.takeWhile_append, if_neg short]
    rfl
  rw [within]
  rcases known with rfl | rfl
  · cases w with
    | nil => simp [runLength]
    | cons d w =>
      have differs : d ≠ tick := by
        rintro rfl
        exact ticks (back.subset List.mem_cons_self)
      simp [runLength_cons_of_ne differs]
  · by_contra many
    have marks : w.takeWhile (· == '~') = List.replicate (runLength '~' w) '~' :=
      List.eq_replicate_iff.mpr ⟨rfl, fun d member => by simpa using List.mem_takeWhile_imp member⟩
    have three : ['~', '~', '~'] <+: List.replicate (runLength '~' w) '~' := by
      obtain ⟨n, size⟩ := Nat.exists_eq_add_of_le (Nat.le_of_not_lt many)
      rw [size, List.replicate_add]
      exact List.prefix_append _ _
    rw [← marks] at three
    exact few ((three.trans (List.takeWhile_prefix _)).isInfix.trans back.isInfix)

theorem calm_of_mem {v s : Text} {c : Char} (unmarked : tick ∉ v ∧ '~' ∉ v) (inside : c ∈ v)
    (other : c ≠ ' ') :
    Calm (v ++ s) := by
  have differs : c ≠ '~' := by
    rintro rfl
    exact unmarked.2 inside
  exact calm_of_few unmarked.1 (fun few => unmarked.2 (few.subset (by simp))) inside
    ⟨other, differs⟩

theorem calm_append {v s : Text} (unmarked : tick ∉ v ∧ '~' ∉ v) (calm : Calm s) :
    Calm (v ++ s) := by
  by_cases dark : ∃ c ∈ v, c ≠ ' '
  · obtain ⟨c, inside, other⟩ := dark
    exact calm_of_mem unmarked inside other
  · intro mark known
    have spaces : ∀ c ∈ v, (c == ' ') = true := by
      intro c inside
      by_cases other : c = ' '
      · simpa using other
      · exact False.elim (dark ⟨c, inside, other⟩)
    rw [List.dropWhile_append_of_pos spaces]
    exact calm mark known


theorem calm_cons {c : Char} (other : c ≠ ' ' ∧ c ≠ tick ∧ c ≠ '~') (s : Text) : Calm (c :: s) := by
  have unmarked : tick ∉ [c] ∧ '~' ∉ [c] := by simpa using ⟨Ne.symm other.2.1, Ne.symm other.2.2⟩
  exact calm_of_mem unmarked List.mem_cons_self other.1

theorem fence?_space {row : Text} (unopened : fence? row = none) : fence? (' ' :: row) = none := by
  have past : (' ' :: row).dropWhile (· == ' ') = row.dropWhile (· == ' ') := by simp
  have short : (row.dropWhile (· == ' ')).length ≤ row.length := (List.dropWhile_suffix _).length_le
  simp only [fence?] at unopened
  simp only [fence?, past, List.length_cons]
  split at unopened
  · rw [if_pos (by omega)]
  · rw [unopened]
    exact ite_self _

theorem fenceLength?_eq_none {s : Text} :
    fenceLength? s = none ↔ fence? (s.takeWhile (· != '\n')) = none := by
  obtain ⟨back, whole⟩ := exists_rows_takeWhile s
  rw [fenceLength?, whole, Option.map_eq_none_iff]

/-- Prose puts no fence in front of a text that begins with none. -/
theorem fenceLength?_prose {v s : Text} (unmarked : tick ∉ v ∧ '~' ∉ v)
    (unopened : fenceLength? s = none) :
    fenceLength? (v ++ s) = none := by
  by_cases dark : ∃ c ∈ v, c ≠ ' '
  · obtain ⟨c, inside, other⟩ := dark
    exact fenceLength?_of_calm (calm_of_mem unmarked inside other)
  · induction v with
    | nil => exact unopened
    | cons c v ih =>
      simp only [List.mem_cons, exists_eq_or_imp, not_or, not_exists, not_and, ne_eq, not_not]
        at dark unmarked ih
      obtain rfl : c = ' ' := dark.1
      have rest := ih ⟨unmarked.1.2, unmarked.2.2⟩ dark.2
      rw [fenceLength?_eq_none] at rest ⊢
      exact fence?_space rest

/-- Where no fence opens, a span may. -/
theorem regionLength?_of_unfenced {lineStart : Bool} {s : Text} (unfenced : fenceLength? s = none) :
    regionLength? lineStart s = spanLength? s := by
  cases lineStart with
  | false => rfl
  | true => rw [regionLength?, if_pos rfl, unfenced]

theorem regionLength?_of_calm {lineStart : Bool} {s : Text} (calm : Calm s)
    (other : s.head? ≠ some tick) :
    regionLength? lineStart s = none := by
  rw [regionLength?_of_unfenced (fenceLength?_of_calm calm)]
  cases s with
  | nil => rfl
  | cons c s => exact spanLength?_of_ne (by simpa using other) s

end Code

namespace ClosingTag

theorem firstEnd?_append {name front s : Text}
    (absent : ∀ a b, front = a ++ b → b ≠ [] → length? name (b ++ s) = none) :
    firstEnd? name (front ++ s) = (firstEnd? name s).map (· + front.length) := by
  induction front with
  | nil => simp
  | cons c front ih =>
    have here := absent [] (c :: front) rfl (by simp)
    have rest := ih fun a b whole more => absent (c :: a) b (by rw [whole]; rfl) more
    simp only [List.cons_append] at here ⊢
    rw [firstEnd?, here]
    simp only [rest, Option.map_map, List.length_cons]
    congr 1

theorem firstEnd?_split {name s : Text} {n : Nat} (found : firstEnd? name s = some n) :
    ∃ front rest m, s = front ++ rest ∧ length? name rest = some m ∧ n = front.length + m := by
  induction s generalizing n with
  | nil => cases found
  | cons c s ih =>
    rw [firstEnd?] at found
    split at found
    · rename_i m here
      exact ⟨[], c :: s, m, rfl, here, by simpa using found.symm⟩
    · obtain ⟨k, later, rfl⟩ := Option.map_eq_some_iff.mp found
      obtain ⟨front, rest, m, rfl, here, rfl⟩ := ih later
      exact ⟨c :: front, rest, m, rfl, here, by simp; omega⟩

/-- A closing tag is its name, and what is blank before its bracket. -/
theorem length?_eq_some {name s : Text} {n : Nat} :
    length? name s = some n ↔ ∃ front blanks rest, s = front ++ (blanks ++ '>' :: rest) ∧
      Text.lower front = '<' :: '/' :: name ∧ (∀ c ∈ blanks, Text.isBlank c = true) ∧
      n = front.length + blanks.length + 1 := by
  constructor
  · intro found
    unfold length? at found
    split at found
    · cases found
    · rename_i rest after
      obtain ⟨front, rfl, matched⟩ := Text.afterLower?_eq_some.mp after
      have size := congrArg List.length matched
      simp only [Text.lower, List.length_map, List.length_cons] at size
      simp only [Text.drop_takeWhile_length] at found
      split at found
      · rename_i tail closes
        refine ⟨front, rest.takeWhile Text.isBlank, tail, ?_, matched, ?_, ?_⟩
        · rw [← closes, List.takeWhile_append_dropWhile]
        · exact fun c inside => List.mem_takeWhile_imp inside
        · rw [← Option.some.inj found]
          omega
      · cases found
  · rintro ⟨front, blanks, rest, rfl, matched, blank, rfl⟩
    have size := congrArg List.length matched
    simp only [Text.lower, List.length_map, List.length_cons] at size
    have after : Text.afterLower? ('<' :: '/' :: name) (front ++ (blanks ++ '>' :: rest)) =
        some (blanks ++ '>' :: rest) := Text.afterLower?_eq_some.mpr ⟨front, rfl, matched⟩
    have run : (blanks ++ '>' :: rest).takeWhile Text.isBlank = blanks := by
      rw [List.takeWhile_append_of_pos blank, List.takeWhile_cons_of_neg (by decide),
        List.append_nil]
    unfold length?
    simp only [after, run, List.drop_left]
    congr 1
    omega

theorem take_of_length? {name s : Text} {n : Nat} (found : length? name s = some n) :
    ∃ front blanks, s.take n = front ++ (blanks ++ ['>']) ∧ Text.lower front = '<' :: '/' :: name ∧
      ∀ c ∈ blanks, Text.isBlank c = true := by
  obtain ⟨front, blanks, rest, rfl, lower, blank, rfl⟩ := length?_eq_some.mp found
  have split : front ++ (blanks ++ '>' :: rest) = (front ++ (blanks ++ ['>'])) ++ rest := by simp
  refine ⟨front, blanks, ?_, lower, blank⟩
  rw [split]
  exact List.take_left' (by simp; omega)

end ClosingTag

/-- A name with one angle bracket, in front, does not begin before a bracket and end after it. -/
theorem Text.afterLower?_across {name b s : Text} (one : '<' ∉ name) (more : b ≠ [])
    (absent : afterLower? ('<' :: name) b = none) :
    afterLower? ('<' :: name) (b ++ '<' :: s) = none := by
  cases found : afterLower? ('<' :: name) (b ++ '<' :: s) with
  | none => rfl
  | some rest =>
    obtain ⟨front, whole, matched⟩ := afterLower?_eq_some.mp found
    rcases List.append_eq_append_iff.mp whole with ⟨k, rfl, tail⟩ | ⟨k, rfl, tail⟩
    · cases k with
      | nil =>
        have here := afterLower?_eq_some.mpr ⟨b, (List.append_nil b).symm, by simpa using matched⟩
        rw [absent] at here
        cases here
      | cons d k =>
        obtain ⟨rfl, _⟩ := List.cons.inj tail
        obtain ⟨c, b, rfl⟩ := List.exists_cons_of_ne_nil more
        have inner : lower b ++ '<' :: lower k = name := by
          have := (List.cons.inj matched).2
          simpa [lower] using this
        exact False.elim (one (by rw [← inner]; simp))
    · have here : afterLower? ('<' :: name) (front ++ k) = some k :=
        afterLower?_eq_some.mpr ⟨front, rfl, matched⟩
      rw [absent] at here
      cases here

theorem Text.afterLower?_of_ne {c : Char} (other : c ≠ '<') (name s : Text) :
    afterLower? ('<' :: name) (c :: s) = none := by
  have differs : c.toLower ≠ '<' := fun same => other (eq_of_toLower_eq (by decide) same)
  simp [afterLower?, differs]

namespace Inert

theorem isPlain_literalName : Text.IsPlain literalName := by
  unfold Text.IsPlain
  decide

/-- A mark does not stand in the name of a literal block, however it is written. -/
theorem not_mem_of_literal {name : Text} (same : Text.lower name = literalName) {c : Char}
    (other : Text.isPlainLetter c.toLower = false) : c ∉ name :=
  Text.not_mem_of_isPlain (same ▸ isPlain_literalName) other

/-- No closing tag of a literal block begins with its opening tag or in a content that holds none.
-/
theorem literal_closing_absent {first content b a s : Text} {stop : Char}
    (opens : Text.lower first = literalName)
    (other : stop ≠ '<') (holds : Text.contains ('<' :: '/' :: literalName) (Text.lower content) =
      false)
    (whole : '<' :: (first ++ [stop]) ++ content = a ++ b) (more : b ≠ []) :
    ClosingTag.length? literalName (b ++ '<' :: s) = none := by
  have unmarked : '<' ∉ first ++ [stop] := by
    have letters : '<' ∉ first := not_mem_of_literal opens (by decide)
    simp [letters, Ne.symm other]
  have absent : Text.afterLower? ('<' :: '/' :: literalName) b = none := by
    obtain ⟨c, b, rfl⟩ := List.exists_cons_of_ne_nil more
    by_cases bracket : c = '<'
    · subst bracket
      rcases Text.append_eq_append_cons whole with ⟨m, front, rfl⟩ | ⟨m, _, rfl⟩
      · cases a with
        | nil =>
          obtain ⟨d, letters, rfl, here, _⟩ := List.map_eq_cons_iff.mp opens
          have slash : d.toLower ≠ '/' := by
            rw [here]
            decide
          rw [← (List.cons.inj front).2]
          simp [Text.afterLower?, slash]
        | cons d a =>
          have inside : '<' ∈ first ++ [stop] := by
            rw [(List.cons.inj front).2]
            simp
          exact False.elim (unmarked inside)
      · exact Text.afterLower?_of_not_contains holds
    · exact Text.afterLower?_of_ne bracket _ _
  have across := Text.afterLower?_across (s := s) (by decide) more absent
  simp only [ClosingTag.length?, across]

/-- A literal block ends with the first closing tag behind it. -/
theorem literalLength?_of_closed {first last content blanks s : Text} {stop : Char}
    (opens : Text.lower first = literalName) (stops : stop = '>' ∨ Text.isBlank stop = true)
    (closes : Text.lower last = literalName) (blank : ∀ c ∈ blanks, Text.isBlank c = true)
    (holds : Text.contains ('<' :: '/' :: literalName) (Text.lower content) = false) :
    literalLength? ('<' :: (first ++ [stop]) ++ content ++
      '<' :: '/' :: (last ++ (blanks ++ ['>'])) ++ s) =
      some ('<' :: (first ++ [stop]) ++ content ++
        '<' :: '/' :: (last ++ (blanks ++ ['>']))).length := by
  have other : stop ≠ '<' := by
    rintro rfl
    revert stops
    decide
  have here : ClosingTag.length? literalName ('<' :: '/' :: (last ++ (blanks ++ ['>'])) ++ s) =
      some (('<' :: '/' :: last).length + blanks.length + 1) :=
    ClosingTag.length?_eq_some.mpr ⟨'<' :: '/' :: last, blanks, s,
      by simp, by rw [← closes]; rfl, blank, rfl⟩
  have ends := ClosingTag.firstEnd?_append (s := '<' :: '/' :: (last ++ (blanks ++ ['>'])) ++ s)
    fun a b whole more => literal_closing_absent opens other holds whole more
  have found : ClosingTag.firstEnd? literalName ('<' :: '/' :: (last ++ (blanks ++ ['>'])) ++ s) =
      some (('<' :: '/' :: last).length + blanks.length + 1) := by
    rw [List.cons_append, ClosingTag.firstEnd?, ← List.cons_append, here]
  rw [found, ← List.append_assoc] at ends
  have after : Text.afterLower? ('<' :: literalName)
      ('<' :: (first ++ [stop]) ++ content ++ '<' :: '/' :: (last ++ (blanks ++ ['>'])) ++ s) =
        some (stop :: (content ++ '<' :: '/' :: (last ++ (blanks ++ ['>'])) ++ s)) :=
    Text.afterLower?_eq_some.mpr ⟨'<' :: first, by simp, by rw [← opens]; rfl⟩
  have opened : (decide (stop = '>') || Text.isBlank stop) = true := by simpa using stops
  unfold literalLength?
  simp only [after, opened, ends, Option.map_some, Option.getD_some, if_true, List.length_append,
    List.length_cons, List.length_nil, Option.some.injEq]
  omega

theorem codeLength?_eq_some {lineStart : Bool} {s : Text} {n : Nat}
    (region : regionLength? lineStart s = some n)
    (literal : literalLength? s = none) : Code.regionLength? lineStart s = some n := by
  rw [regionLength?, literal] at region
  split at region
  · rename_i code
    exact code.trans region
  · cases region

theorem codeLength?_eq_none {lineStart : Bool} {s : Text}
    (plain : regionLength? lineStart s = none) :
    Code.regionLength? lineStart s = none := by
  rw [regionLength?] at plain
  split at plain
  · cases plain
  · assumption

theorem regionLength?_of_not_code {lineStart : Bool} {s : Text} (calm : Code.Calm s)
    (other : s.head? ≠ some tick) :
    regionLength? lineStart s = literalLength? s := by
  rw [regionLength?, Code.regionLength?_of_calm calm other]

end Inert

/-- Text in which nothing is marked up. -/
structure Prose (s : Text) : Prop where
  tags : '<' ∉ s
  ticks : tick ∉ s
  tildes : '~' ∉ s

/-- Whether what follows a text begins a row, if the text itself does as said. -/
def startsRow (lineStart : Bool) (s : Text) : Bool :=
  match s.getLast? with
  | none => lineStart
  | some c => c == '\n'

theorem startsRow_cons (lineStart : Bool) (c : Char) (s : Text) :
    startsRow lineStart (c :: s) = startsRow (c == '\n') s := by
  cases s with
  | nil => simp [startsRow]
  | cons d s => simp [startsRow, List.getLast?_cons]

theorem startsRow_of_one {lineStart : Bool} {s : Text} (one : '\n' ∉ s)
    (more : s = [] → lineStart = false) :
    startsRow lineStart s = false := by
  unfold startsRow
  split
  · rename_i empty
    exact more (List.getLast?_eq_none_iff.mp empty)
  · rename_i c last
    rw [beq_eq_false_iff_ne]
    rintro rfl
    exact one (List.mem_of_getLast? last)

/-- Text in front of another in which nothing is marked up, and no fence opens for what follows it.
-/
structure Clear (v s : Text) : Prop where
  tags : '<' ∉ v
  ticks : tick ∉ v
  unfenced : ∀ a b, v = a ++ b → b ≠ [] → Code.fenceLength? (b ++ s) = none

/-- Prose before a text puts no fence at its own head if it ends a row, or if the text begins with
no fence. -/
theorem Prose.clear {v s : Text} (prose : Prose v)
    (meets : v.getLast? = some '\n' ∨ Code.fenceLength? s = none) : Clear v s where
  tags := prose.tags
  ticks := prose.ticks
  unfenced a b whole more := by
    have unmarked : tick ∉ b ∧ '~' ∉ b := by
      constructor
      · exact fun inside => prose.ticks (by simp [whole, inside])
      · exact fun inside => prose.tildes (by simp [whole, inside])
    rcases meets with row | unopened
    · rw [whole, List.getLast?_append_of_ne_nil _ more] at row
      exact Code.fenceLength?_of_calm
        (Code.calm_of_mem unmarked (List.mem_of_getLast? row) (by decide))
    · exact Code.fenceLength?_prose unmarked unopened

namespace Clear

variable {v w s : Text}

theorem append (front : Clear v (w ++ s)) (back : Clear w s) : Clear (v ++ w) s where
  tags := by simp [front.tags, back.tags]
  ticks := by simp [front.ticks, back.ticks]
  unfenced a b whole more := by
    rcases List.append_eq_append_iff.mp whole with ⟨m, _, rest⟩ | ⟨m, split, rfl⟩
    · exact back.unfenced m b rest more
    · cases m with
      | nil => exact back.unfenced [] w rfl more
      | cons c m =>
        rw [List.append_assoc]
        exact front.unfenced a (c :: m) split (by simp)

end Clear

namespace Inert

theorem literalLength?_of_ne {c : Char} (other : c ≠ '<') (s : Text) :
    literalLength? (c :: s) = none := by
  simp [literalLength?, Text.afterLower?_of_ne other]

/-- A tag of another name opens no literal block. -/
theorem literalLength?_of_name {name rest : Text} {d : Char}
    (letters : Text.IsPlain (Text.lower name))
    (other : Text.lower name ≠ literalName) (stop : Text.isNameChar d = false) :
    literalLength? ('<' :: (name ++ d :: rest)) = none := by
  have plain := isPlain_literalName
  unfold literalLength?
  split
  · rename_i c back after
    obtain ⟨front, whole, lower⟩ := Text.afterLower?_eq_some.mp after
    obtain ⟨e, front, rfl, _, lower⟩ := List.map_eq_cons_iff.mp lower
    obtain ⟨_, whole⟩ := List.cons.inj whole
    have named := Text.isNameChar_of_matched plain (Text.matched_of_lower plain lower)
    rcases Text.append_eq_append_cons whole.symm with ⟨m, rfl, _⟩ | ⟨m, rfl, tail⟩
    · rw [named d (by simp)] at stop
      cases stop
    · cases m with
      | nil => exact False.elim (other (by rw [List.append_nil]; exact lower))
      | cons c' m =>
        obtain ⟨rfl, _⟩ := List.cons.inj tail
        have stops := Text.not_ends_of_toLower (letters c.toLower (by simp [Text.lower]))
        simp [stops]
  · rfl

end Inert

end MarkupActions
