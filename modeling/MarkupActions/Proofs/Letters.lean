import Mathlib.Data.List.Forall2
import Mathlib.Tactic.MkIffOfInductiveProp
import MarkupActions.Attribute
import MarkupActions.Registry.Rename

/-!
# Letters, names and marks

The marks of the format (angle brackets, quotes, backticks and the like) are no letters in whatever
case, so that no name has one in it. Below 128 this is decided character by character, above it by
the tables.
-/

namespace MarkupActions.Text

/-- The characters that tags and code are delimited by. -/
def isMark (c : Char) : Bool := ['<', '>', '/', '=', '"', '\'', '\x60', '~'].contains c

/-- What the names of the built-in tags are made of. -/
def isPlainLetter (c : Char) : Bool := c.isLower || c == '-' || c == '_'

/-- How marks, letters and white space are told apart below 128. -/
@[mk_iff]
structure Ascii (c : Char) : Prop where
  named : isNameChar c = true → isMark c = false
  blank : isBlank c = true → isMark c = false ∧ isNameChar c = false
  plain : isPlainLetter c = true → c.toLower = c ∧ fold c = c ∧ isNameChar c = true ∧
    c ≠ Char.ofNat 0
  mark : isMark c.toLower = true → c = c.toLower
  lower : c.toLower.isLower = true → c.isAlpha = true
  letter : c.isAlpha = true → TagToken.startsName c = true
  starts : TagToken.startsName c = true → isNameChar c = true
  folded : isPlainLetter (fold c) = true → isNameChar c = true
  cased : isPlainLetter c.toLower = true → ¬ (c = '>' ∨ isBlank c = true)

instance (c : Char) : Decidable (Ascii c) := decidable_of_iff' _ (ascii_iff c)

theorem ascii {c : Char} (small : c.toNat < 128) : Ascii c := by
  have table : ∀ n < 128, Ascii (Char.ofNat n) := by decide +kernel
  have here := table c.toNat small
  rwa [Char.ofNat_toNat] at here

theorem toNat_lt_of_isMark {c : Char} (mark : isMark c = true) : c.toNat < 128 := by
  simp only [isMark, List.contains_iff_mem, List.mem_cons, List.not_mem_nil, or_false] at mark
  rcases mark with rfl | rfl | rfl | rfl | rfl | rfl | rfl | rfl <;> decide

theorem isMark_of_large {c : Char} (large : ¬ c.toNat < 128) : isMark c = false := by
  cases mark : isMark c with
  | false => rfl
  | true => exact False.elim (large (toNat_lt_of_isMark mark))

theorem not_mark_of_isNameChar {c : Char} (named : isNameChar c = true) : isMark c = false := by
  by_cases small : c.toNat < 128
  · exact (ascii small).named named
  · exact isMark_of_large small

theorem not_mark_of_isBlank {c : Char} (blank : isBlank c = true) : isMark c = false := by
  by_cases small : c.toNat < 128
  · exact ((ascii small).blank blank).1
  · exact isMark_of_large small

theorem blank_cases {P : Char → Prop} {c : Char} (large : ¬ c.toNat < 128)
    (blank : isBlank c = true)
    (checked : ∀ n ∈ [0x85, 0xA0, 0x1680, 0x2028, 0x2029, 0x202F, 0x205F, 0x3000] ++
      List.range' 0x2000 11,
      P (Char.ofNat n)) : P c := by
  have here := checked c.toNat
  rw [Char.ofNat_toNat] at here
  apply here
  have val : c.val.toNat = c.toNat := rfl
  simp only [isBlank, Bool.or_eq_true, Bool.and_eq_true, decide_eq_true_eq, beq_iff_eq,
    ← UInt32.toNat_inj, UInt32.le_iff_toNat_le, UInt32.reduceToNat, val] at blank
  simp only [List.mem_append, List.mem_cons, List.not_mem_nil, or_false, List.mem_range'_1]
  omega

theorem not_blank_of_isNameChar {c : Char} (named : isNameChar c = true) : isBlank c = false := by
  cases blank : isBlank c with
  | false => rfl
  | true =>
    have apart : isNameChar c = false := by
      by_cases small : c.toNat < 128
      · exact ((ascii small).blank blank).2
      · exact blank_cases (P := fun c => isNameChar c = false) small blank (by decide +kernel)
    rw [apart] at named
    cases named

theorem isBlank_of_isSpaceOrTab {c : Char} (space : isSpaceOrTab c = true) : isBlank c = true := by
  simp only [isSpaceOrTab, Bool.or_eq_true, beq_iff_eq] at space
  rcases space with rfl | rfl <;> decide

theorem toNat_lt_of_isPlainLetter {c : Char} (plain : isPlainLetter c = true) : c.toNat < 128 := by
  simp only [isPlainLetter, Bool.or_eq_true, beq_iff_eq] at plain
  rcases plain with (lower | rfl) | rfl
  · unfold Char.isLower at lower
    simp only [Bool.and_eq_true, decide_eq_true_eq] at lower
    have top : c.toNat ≤ 'z'.toNat := UInt32.le_iff_toNat_le.mp lower.2
    exact Nat.lt_of_le_of_lt top (by decide)
  · decide
  · decide

theorem toNat_lt_of_isAlpha {c : Char} (letter : c.isAlpha = true) : c.toNat < 128 := by
  unfold Char.isAlpha Char.isUpper Char.isLower at letter
  simp only [Bool.or_eq_true, Bool.and_eq_true, decide_eq_true_eq] at letter
  have top : c.toNat ≤ 'z'.toNat := by
    rcases letter with ⟨_, high⟩ | ⟨_, high⟩
    · exact Nat.le_trans (UInt32.le_iff_toNat_le.mp high) (by decide)
    · exact UInt32.le_iff_toNat_le.mp high
  exact Nat.lt_of_le_of_lt top (by decide)

theorem toLower_of_large {c : Char} (large : ¬ c.toNat < 128) : c.toLower = c := by
  have high : ¬ (c.val ≥ 'A'.val ∧ c.val ≤ 'Z'.val) := by
    rintro ⟨_, top⟩
    have bound : c.toNat ≤ 'Z'.toNat := UInt32.le_iff_toNat_le.mp top
    exact large (Nat.lt_of_le_of_lt bound (by decide))
  exact dif_neg high

theorem toLower_toLower (c : Char) : c.toLower.toLower = c.toLower := by
  by_cases small : c.toNat < 128
  · have table : ∀ n < 128, (Char.ofNat n).toLower.toLower = (Char.ofNat n).toLower := by
      decide +kernel
    have here := table c.toNat small
    rwa [Char.ofNat_toNat] at here
  · rw [toLower_of_large small, toLower_of_large small]

theorem lower_lower (s : Text) : lower (lower s) = lower s := by
  rw [lower, lower, List.map_map]
  exact List.map_congr_left fun c _ => toLower_toLower c

/-- A plain letter is its own lower case, and nothing folds it into another. -/
theorem isPlainLetter_self {c : Char} (plain : isPlainLetter c = true) :
    c.toLower = c ∧ fold c = c ∧ isNameChar c = true ∧ c ≠ Char.ofNat 0 :=
  (ascii (toNat_lt_of_isPlainLetter plain)).plain plain

theorem toLower_of_isPlainLetter {c : Char} (plain : isPlainLetter c = true) : c.toLower = c :=
  (isPlainLetter_self plain).1

theorem isNameChar_of_isPlainLetter {c : Char} (plain : isPlainLetter c = true) :
    isNameChar c = true :=
  (isPlainLetter_self plain).2.2.1

theorem toNat_lt_of_toLower {c : Char} (plain : isPlainLetter c.toLower = true) :
    c.toNat < 128 := by
  by_cases small : c.toNat < 128
  · exact small
  · rw [toLower_of_large small] at plain
    exact toNat_lt_of_isPlainLetter plain

/-- A mark is no letter, so it is no letter in lower case either. -/
theorem eq_of_toLower_eq {c m : Char} (mark : isMark m = true) (same : c.toLower = m) : c = m := by
  by_cases small : c.toNat < 128
  · subst same
    exact (ascii small).mark mark
  · rwa [toLower_of_large small] at same

theorem isAlpha_of_isLower {c : Char} (lower : c.isLower = true) : c.isAlpha = true := by
  unfold Char.isAlpha
  rw [lower, Bool.or_true]

theorem isAlpha_of_toLower {c : Char} (lower : c.toLower.isLower = true) : c.isAlpha = true := by
  by_cases small : c.toNat < 128
  · exact (ascii small).lower lower
  · rw [toLower_of_large small] at lower
    exact isAlpha_of_isLower lower

theorem startsName_of_isAlpha {c : Char} (letter : c.isAlpha = true) :
    TagToken.startsName c = true :=
  (ascii (toNat_lt_of_isAlpha letter)).letter letter

/-- What is no code point stands for the null character. -/
theorem ofNat_cases (n : Nat) : (Char.ofNat n).toNat = n ∨ Char.ofNat n = Char.ofNat 0 := by
  by_cases valid : n.isValidChar
  · have shape : Char.ofNat n = Char.ofNatAux n valid := dif_pos valid
    rw [shape]
    exact .inl rfl
  · exact .inr (dif_neg valid)

/-- Outside ASCII only the long s and the Kelvin sign fold into it. -/
theorem fold_of_large {c : Char} (large : ¬ c.toNat < 128) :
    ¬ (fold c).toNat < 128 ∨ fold c = Char.ofNat 0 ∨ isNameChar c = true := by
  have runs : ∀ run ∈ foldRuns, 128 ≤ run.target ∨
      (run.first = run.last ∧ isNameChar (Char.ofNat run.first) = true) := by
    decide +kernel
  have here : ¬ c.val < 128 := large
  unfold fold
  rw [if_neg here]
  cases found : foldRuns.find? (·.holds c.toNat) with
  | none => exact .inl large
  | some run =>
    have holds := List.find?_some found
    rcases runs run (List.mem_of_find?_eq_some found) with high | ⟨single, named⟩
    · rcases ofNat_cases (run.target + (c.toNat - run.first)) with value | null
      · left
        show ¬ (Char.ofNat (run.target + (c.toNat - run.first))).toNat < 128
        omega
      · exact .inr (.inl null)
    · right
      right
      simp only [FoldRun.holds, Bool.and_eq_true, decide_eq_true_eq] at holds
      have same : c.toNat = run.first := by omega
      rw [← Char.ofNat_toNat c, same]
      exact named

theorem isNameChar_of_startsName {c : Char} (starts : TagToken.startsName c = true) :
    isNameChar c = true := by
  by_cases small : c.toNat < 128
  · exact (ascii small).starts starts
  · have lower : (fold c).isLower = true := starts
    rcases fold_of_large small with large | null | named
    · have top := toNat_lt_of_isPlainLetter (c := fold c) (by simp [isPlainLetter, lower])
      exact False.elim (large top)
    · rw [null] at lower
      cases lower
    · exact named

/-- What differs from a plain letter at most in case may stand in a name. -/
theorem isNameChar_of_sameFolded {c n : Char} (plain : isPlainLetter n = true)
    (same : sameFolded c n = true) :
    isNameChar c = true := by
  obtain ⟨_, self, named, nonzero⟩ := isPlainLetter_self plain
  simp only [sameFolded, Bool.or_eq_true, beq_iff_eq, self] at same
  rcases same with rfl | folded
  · exact named
  · by_cases small : c.toNat < 128
    · exact (ascii small).folded (by rw [folded]; exact plain)
    · rcases fold_of_large small with far | zero | named
      · exact False.elim (far (by rw [folded]; exact toNat_lt_of_isPlainLetter plain))
      · exact False.elim (nonzero (folded.symm.trans zero))
      · exact named

theorem startsName_of_sameFolded {c n : Char} (lower : n.isLower = true)
    (same : sameFolded c n = true) :
    TagToken.startsName c = true := by
  have plain : isPlainLetter n = true := by simp [isPlainLetter, lower]
  have self := (isPlainLetter_self plain).2.1
  simp only [sameFolded, Bool.or_eq_true, beq_iff_eq, self] at same
  have folded : fold c = n := by
    rcases same with rfl | folded
    · exact self
    · exact folded
  rw [TagToken.startsName, folded]
  exact lower

/-- Only `k` and `s` have a letter outside ASCII that folds into them. -/
theorem toLower_of_sameFolded_ascii {c n : Char} (plain : isPlainLetter n = true)
    (other : n ≠ 'k' ∧ n ≠ 's')
    (same : sameFolded c n = true) : c.toLower = n := by
  have runs : ∀ run ∈ foldRuns, 128 ≤ run.target ∨
      (run.first = run.last ∧ (Char.ofNat run.target = 'k' ∨ Char.ofNat run.target = 's')) := by
    decide +kernel
  have small := toNat_lt_of_isPlainLetter plain
  obtain ⟨lower, self, _, nonzero⟩ := isPlainLetter_self plain
  simp only [sameFolded, Bool.or_eq_true, beq_iff_eq, self] at same
  rcases same with rfl | folded
  · exact lower
  · by_cases ascii : c.val < 128
    · rwa [fold, if_pos ascii] at folded
    · rw [fold, if_neg ascii] at folded
      cases found : foldRuns.find? (·.holds c.toNat) with
      | none =>
        simp only [found] at folded
        exact False.elim (ascii (folded ▸ small))
      | some run =>
        simp only [found] at folded
        have holds := List.find?_some found
        simp only [FoldRun.holds, Bool.and_eq_true, decide_eq_true_eq] at holds
        rcases runs run (List.mem_of_find?_eq_some found) with high | ⟨single, target⟩
        · rcases ofNat_cases (run.target + (c.toNat - run.first)) with value | null
          · rw [← folded, value] at small
            omega
          · exact False.elim (nonzero (folded.symm.trans null))
        · have start : c.toNat - run.first = 0 := by omega
          rw [start, Nat.add_zero] at folded
          rw [folded] at target
          exact False.elim (target.elim other.1 other.2)

theorem afterFolded?_eq_some {name s rest : Text} :
    afterFolded? name s = some rest ↔
      ∃ front, s = front ++ rest ∧ List.Forall₂ (fun n c => sameFolded c n = true) name front := by
  induction name generalizing s with
  | nil => simp [afterFolded?]
  | cons n name ih =>
    cases s with
    | nil => simp [afterFolded?, List.forall₂_cons_left_iff]
    | cons c s =>
      by_cases same : sameFolded c n
      · simp only [afterFolded?, same, if_true, ih, List.forall₂_cons_left_iff]
        constructor
        · rintro ⟨front, rfl, matched⟩
          exact ⟨c :: front, rfl, c, front, same, matched, rfl⟩
        · rintro ⟨_, whole, d, front, _, matched, rfl⟩
          exact ⟨front, (List.cons.inj whole).2, matched⟩
      · simp only [afterFolded?, same, Bool.false_eq_true, if_false, List.forall₂_cons_left_iff,
          reduceCtorEq, false_iff]
        rintro ⟨_, whole, d, front, folded, _, rfl⟩
        rw [(List.cons.inj whole).1] at same
        exact same folded

theorem afterLower?_eq_some {name s rest : Text} :
    afterLower? name s = some rest ↔ ∃ front, s = front ++ rest ∧ lower front = name := by
  induction name generalizing s with
  | nil => simp [afterLower?, lower]
  | cons n name ih =>
    cases s with
    | nil => simp [afterLower?, lower]
    | cons c s =>
      by_cases same : c.toLower = n
      · simp only [afterLower?, same, if_true, ih]
        constructor
        · rintro ⟨front, rfl, matched⟩
          exact ⟨c :: front, rfl, by simp [lower, same, ← matched]⟩
        · rintro ⟨front, whole, matched⟩
          cases front with
          | nil => cases matched
          | cons d front =>
            exact ⟨front, (List.cons.inj whole).2, (List.cons.inj matched).2⟩
      · simp only [afterLower?, same, if_false, reduceCtorEq, false_iff]
        rintro ⟨front, whole, matched⟩
        cases front with
        | nil => cases matched
        | cons d front =>
          rw [(List.cons.inj whole).1] at same
          exact same (List.cons.inj matched).1

theorem contains_iff_within {t s : Text} : contains t s = true ↔ t <:+: s := by
  induction s with
  | nil => simp [contains, List.infix_nil]
  | cons c s ih =>
    rw [contains, Bool.or_eq_true, ih, List.infix_cons_iff, List.isPrefixOf_iff_prefix]

/-- Where a text in lower case contains a name after a mark, the text has the name in some letter
case. -/
theorem contains_lower_iff {name s : Text} :
    contains ('<' :: name) (lower s) = true ↔ ∃ a front rest, s = a ++ '<' :: (front ++ rest) ∧
      lower front = name := by
  rw [contains_iff_within]
  constructor
  · rintro ⟨before, after, whole⟩
    rw [List.append_assoc] at whole
    obtain ⟨a, v, rfl, rfl, inner⟩ := List.map_eq_append_iff.mp whole.symm
    obtain ⟨lead, rest, rfl, lower, rfl⟩ := List.map_eq_append_iff.mp inner
    obtain ⟨c, front, rfl, head, tail⟩ := List.map_eq_cons_iff.mp lower
    obtain rfl := eq_of_toLower_eq (by decide) head
    exact ⟨a, front, rest, rfl, tail⟩
  · rintro ⟨a, front, rest, rfl, rfl⟩
    exact ⟨lower a, lower rest, by simp [lower]⟩

/-- A name that a text does not contain in any letter case begins nowhere in it. -/
theorem afterLower?_of_not_contains {name a v : Text}
    (absent : contains name (lower (a ++ v)) = false) :
    afterLower? name v = none := by
  cases found : afterLower? name v with
  | none => rfl
  | some rest =>
    obtain ⟨front, rfl, matched⟩ := afterLower?_eq_some.mp found
    have inside : contains name (lower (a ++ (front ++ rest))) = true := by
      rw [contains_iff_within, ← matched]
      exact ⟨lower a, lower rest, by simp [lower]⟩
    rw [absent] at inside
    cases inside

/-- All characters of a name are plain. -/
def IsPlain (name : Text) : Prop := ∀ n ∈ name, isPlainLetter n = true

theorem lower_of_isPlain {name : Text} (plain : IsPlain name) : lower name = name := by
  induction name with
  | nil => rfl
  | cons c name ih =>
    have rest := ih fun d inside => plain d (List.mem_cons_of_mem _ inside)
    simp only [lower, List.map_cons, toLower_of_isPlainLetter (plain c List.mem_cons_self)]
      at rest ⊢
    rw [rest]

/-- A character that is no letter in lower case stands in no name that is plain in lower case. -/
theorem not_mem_of_isPlain {name : Text} (plain : IsPlain (lower name)) {c : Char}
    (other : isPlainLetter c.toLower = false) :
    c ∉ name := by
  intro inside
  have letter := plain _ (List.mem_map_of_mem inside)
  rw [other] at letter
  cases letter

/-- What is taken for a plain name is made of characters that names are made of. -/
theorem isNameChar_of_matched {name front : Text} (plain : IsPlain name)
    (matched : List.Forall₂ (fun n c => sameFolded c n = true) name front) :
    ∀ c ∈ front, isNameChar c = true := by
  induction matched with
  | nil => simp
  | @cons n c name front same _ ih =>
    intro d inside
    rcases List.mem_cons.mp inside with rfl | inside
    · exact isNameChar_of_sameFolded (plain n List.mem_cons_self) same
    · exact ih (fun m member => plain m (List.mem_cons_of_mem _ member)) d inside

/-- A letter, in either case, does not end the name of a tag. -/
theorem not_ends_of_toLower {c : Char} (plain : isPlainLetter c.toLower = true) :
    ¬ (c = '>' ∨ isBlank c = true) :=
  (ascii (toNat_lt_of_toLower plain)).cased plain

theorem sameFolded_of_toLower {c n : Char} (plain : isPlainLetter n = true) (same : c.toLower = n) :
    sameFolded c n = true := by
  simp only [sameFolded, Bool.or_eq_true, beq_iff_eq, (isPlainLetter_self plain).2.1]
  by_cases ascii : c.toNat < 128
  · have here : c.val < 128 := ascii
    right
    rw [fold, if_pos here, same]
  · left
    rw [← same, toLower_of_large ascii]

/-- A plain name in whatever letter case is taken for the name. -/
theorem matched_of_lower {name front : Text} (plain : IsPlain name)
    (same : front.map Char.toLower = name) :
    List.Forall₂ (fun n c => sameFolded c n = true) name front := by
  induction front generalizing name with
  | nil =>
    subst same
    exact .nil
  | cons c front ih =>
    subst same
    refine .cons (sameFolded_of_toLower (plain _ List.mem_cons_self) rfl) (ih ?_ rfl)
    exact fun d inside => plain d (List.mem_cons_of_mem _ inside)

theorem toLower_of_sameFolded {c n : Char} (plain : isPlainLetter n = true)
    (lower : isPlainLetter c.toLower = true)
    (same : sameFolded c n = true) : c.toLower = n := by
  have here : c.val < 128 := toNat_lt_of_toLower lower
  obtain ⟨stands, self, _⟩ := isPlainLetter_self plain
  simp only [sameFolded, Bool.or_eq_true, beq_iff_eq, self] at same
  rcases same with rfl | folded
  · exact stands
  · rwa [fold, if_pos here] at folded

/-- Among letters of ASCII, what is taken for a name is the name in some letter case. -/
theorem lower_of_matched {name front : Text} (plain : IsPlain name)
    (letters : IsPlain (lower front))
    (matched : List.Forall₂ (fun n c => sameFolded c n = true) name front) :
    lower front = name := by
  induction matched with
  | nil => rfl
  | @cons n c name front same _ ih =>
    have rest := ih (fun m inside => plain m (List.mem_cons_of_mem _ inside))
      fun d inside => letters d (List.mem_cons_of_mem _ inside)
    have head : c.toLower = n :=
      toLower_of_sameFolded (plain n List.mem_cons_self) (letters _ List.mem_cons_self) same
    simp only [lower, List.map_cons] at rest ⊢
    rw [head, rest]

end MarkupActions.Text
