import MarkupActions.Proofs.Respelt

/-!
# Reading past respelled tags

Whoever looks for other names than those that are respelled finds the same in both texts: closing
tags, literal blocks and opening tags, each with what follows it.
-/

namespace MarkupActions

open Respelt (Meets)

theorem TagName.stops {name : Text} (named : TagName name) {c : Char} (ends : endsName c = true)
    (s : Text) : (name ++ c :: s).takeWhile Text.isNameChar = name :=
  Text.takeWhile_exact named.letters (by simpa using not_isNameChar_of_endsName ends)

namespace ClosingTag

variable {name other : Text} {closing : Bool} {c : Char}

/-- A closing tag is an angle bracket with what holds none, and nothing behind it counts. -/
theorem split_of_length? {s : Text} {n : Nat} (plain : Text.IsPlain name)
    (found : length? name s = some n) :
    ∃ w rest, s = '<' :: (w ++ rest) ∧ '<' ∉ w ∧ n = w.length + 1 ∧
      ∀ rest, length? name ('<' :: (w ++ rest)) = some n := by
  obtain ⟨front, blanks, rest, rfl, lower, blank, size⟩ := length?_eq_some.mp found
  obtain ⟨a, front, rfl, bracket, lower'⟩ := List.map_eq_cons_iff.mp lower
  obtain rfl := Text.eq_of_toLower_eq (by decide) bracket
  have outside : '<' ∉ front := by
    intro inside
    have marked := List.mem_map_of_mem (f := Char.toLower) inside
    rw [lower', List.mem_cons] at marked
    rcases marked with slash | letter
    · revert slash
      decide
    · exact absurd (plain _ letter) (by decide)
  have unblank : '<' ∉ blanks ++ ['>'] := SpellingTable.unmarked_closing blank
  refine ⟨front ++ (blanks ++ ['>']), rest, by simp, ?_, by simp [size]; omega, fun rest' => ?_⟩
  · rw [List.mem_append, not_or]
    exact ⟨outside, unblank⟩
  · exact length?_eq_some.mpr ⟨'<' :: front, blanks, rest', by simp, lower, blank, size⟩

/-- A token of another name closes nothing. -/
theorem length?_of_token (plain : Text.IsPlain name) (named : TagName other)
    (ends : endsName c = true) (differs : Text.lower other ≠ name) (s : Text) :
    length? name ((TagToken.mk closing other).text ++ c :: s) = none := by
  cases found : length? name ((TagToken.mk closing other).text ++ c :: s) with
  | none => rfl
  | some n =>
    obtain ⟨front, blanks, rest, whole, lower, blank, _⟩ := length?_eq_some.mp found
    obtain ⟨a, front, rfl, _, lower⟩ := List.map_eq_cons_iff.mp lower
    obtain ⟨b, letters, rfl, slash, lower'⟩ := List.map_eq_cons_iff.mp lower
    obtain rfl := Text.eq_of_toLower_eq (by decide) slash
    have stop : (blanks ++ '>' :: rest).head?.any Text.isNameChar = false :=
      SpellingTable.not_isNameChar_closing blank
    have run := Text.takeWhile_exact
      (Text.isNameChar_of_matched plain (Text.matched_of_lower plain lower')) stop
    cases closing with
    | true =>
      have inner : other ++ c :: s = letters ++ (blanks ++ '>' :: rest) := by
        simpa [TagToken.text] using (List.cons.inj whole).2
      rw [← inner, named.stops ends] at run
      exact absurd (run ▸ lower') differs
    | false =>
      obtain ⟨d, tail, rfl, alpha⟩ := named.exists_cons
      have head : d = '/' := by
        simp only [TagToken.text, Bool.false_eq_true, if_false, List.cons_append,
          List.nil_append] at whole
        exact (List.cons.inj (List.cons.inj whole).2).1
      rw [head] at alpha
      exact absurd alpha (by decide)

end ClosingTag

namespace Inert

/-- A literal block opens with what holds one angle bracket, and nothing behind that counts. -/
theorem split_of_literalLength? {s : Text} {n : Nat} (found : literalLength? s = some n) :
    ∃ w rest, s = '<' :: (w ++ rest) ∧ '<' ∉ w ∧ ∀ rest, literalLength? ('<' :: (w ++ rest)) =
      some ((ClosingTag.firstEnd? literalName ('<' :: (w ++ rest))).getD
        ('<' :: (w ++ rest)).length) := by
  unfold literalLength? at found
  split at found
  · rename_i c rest after
    split at found
    · rename_i stops
      obtain ⟨front, rfl, lower⟩ := Text.afterLower?_eq_some.mp after
      obtain ⟨a, front, rfl, bracket, lower'⟩ := List.map_eq_cons_iff.mp lower
      obtain rfl := Text.eq_of_toLower_eq (by decide) bracket
      refine ⟨front ++ [c], rest, by simp, ?_, fun rest' => ?_⟩
      · have outside : '<' ∉ front := not_mem_of_literal lower' (by decide)
        have other : '<' ≠ c := by
          rintro rfl
          revert stops
          decide
        simp [outside, other]
      · have after' : Text.afterLower? ('<' :: literalName) ('<' :: (front ++ [c] ++ rest')) =
            some (c :: rest') := Text.afterLower?_eq_some.mpr ⟨'<' :: front, by simp, lower⟩
        rw [literalLength?, after']
        exact if_pos stops
    · cases found
  · cases found

/-- A token of another name opens no literal block. -/
theorem literalLength?_of_token {closing : Bool} {other : Text} {c : Char} (named : TagName other)
    (ends : endsName c = true) (differs : Text.lower other ≠ literalName) (s : Text) :
    literalLength? ((TagToken.mk closing other).text ++ c :: s) = none := by
  cases closing with
  | false => exact literalLength?_of_name named.plain differs (not_isNameChar_of_endsName ends)
  | true =>
    have slash : '/' ≠ 'l' := by decide
    simp [literalLength?, TagToken.text, Text.afterLower?, literalName]

end Inert

namespace Respelt

variable {table : SpellingTable} {s t : Text} {name : Text}

theorem Meets.shift {c : Char} {x y : Option Nat} (meets : Meets table s t x y) :
    Meets table (c :: s) (c :: t) (x.map (· + 1)) (y.map (· + 1)) := by
  cases meets with
  | none => exact .none
  | some rest => exact .some rest

theorem Meets.past {u v : Text} {x y : Option Nat} (meets : Meets table s t x y) :
    Meets table (u ++ s) (v ++ t) (x.map (· + u.length)) (y.map (· + v.length)) := by
  cases meets with
  | none => exact .none
  | some rest =>
    refine .some ?_
    simpa [Nat.add_comm _ u.length, Nat.add_comm _ v.length, ← List.drop_drop] using rest

/-- A name that the table does not know is not the name of a token that is respelled, nor of what it
is respelled to. -/
theorem differs (settled : table.Settled) (foreign : table.canonical? name = none)
    {old tag : Text} (known : table.canonical? old = some tag) :
    Text.lower old ≠ name ∧ Text.lower tag ≠ name := by
  have fixed := settled.fixed _ _ known
  constructor
  · rintro rfl
    rw [SpellingTable.canonical?_lower, known] at foreign
    cases foreign
  · rintro rfl
    rw [SpellingTable.canonical?_lower, fixed] at foreign
    cases foreign

/-- Closing tags of another name stand in both texts alike. -/
theorem length?_eq (settled : table.Settled) (plain : Text.IsPlain name)
    (foreign : table.canonical? name = none) (respelt : Respelt table s t) :
    ClosingTag.length? name t = ClosingTag.length? name s := by
  cases respelt with
  | nil => rfl
  | @token closing old tag c s t named tagged known ends rest =>
    obtain ⟨first, second⟩ := differs settled foreign known
    rw [ClosingTag.length?_of_token plain named ends first,
      ClosingTag.length?_of_token plain tagged ends second]
  | @keep c s t rest =>
    cases found : ClosingTag.length? name (c :: s) with
    | some n =>
      obtain ⟨w, tail, whole, tags, _, same⟩ := ClosingTag.split_of_length? plain found
      obtain ⟨rfl, rfl⟩ := List.cons.inj whole
      obtain ⟨t', rfl, _⟩ := rest.split_unmarked tags
      exact same t'
    | none =>
      cases found' : ClosingTag.length? name (c :: t) with
      | none => rfl
      | some n =>
        obtain ⟨w, tail, whole, tags, _, same⟩ := ClosingTag.split_of_length? plain found'
        obtain ⟨rfl, rfl⟩ := List.cons.inj whole
        obtain ⟨s', rfl, _⟩ := rest.split_unmarked_new tags
        rw [same s'] at found
        cases found

/-- The first closing tag of another name is the same in both texts. -/
theorem firstEnd?_meets (settled : table.Settled) (plain : Text.IsPlain name)
    (foreign : table.canonical? name = none) (respelt : Respelt table s t) :
    Meets table s t (ClosingTag.firstEnd? name s) (ClosingTag.firstEnd? name t) := by
  induction respelt with
  | nil => exact .none
  | @keep c s t rest ih =>
    rw [ClosingTag.firstEnd?, ClosingTag.firstEnd?,
      (rest.keep c).length?_eq settled plain foreign]
    cases found : ClosingTag.length? name (c :: s) with
    | none => exact ih.shift
    | some n =>
      obtain ⟨w, tail, whole, tags, rfl, _⟩ := ClosingTag.split_of_length? plain found
      obtain ⟨rfl, rfl⟩ := List.cons.inj whole
      obtain ⟨t', rfl, rest'⟩ := rest.split_unmarked tags
      exact .some (by simpa using rest')
  | @token closing old tag c s t named tagged known ends rest ih =>
    obtain ⟨first, second⟩ := differs settled foreign known
    have past : ∀ {other : Text}, TagName other → Text.lower other ≠ name → ∀ x : Text,
        ClosingTag.firstEnd? name ((TagToken.mk closing other).text ++ c :: x) =
          (ClosingTag.firstEnd? name (c :: x)).map
            (· + (TagToken.mk closing other).text.length) := by
      intro other named differs x
      refine ClosingTag.firstEnd?_append fun a b whole more => ?_
      have tags := @TagToken.not_mem_tail ⟨closing, other⟩ named.isName
      obtain ⟨d, b, rfl⟩ := List.exists_cons_of_ne_nil more
      cases a with
      | nil =>
        rw [← List.nil_append (d :: b), ← whole]
        exact ClosingTag.length?_of_token plain named ends differs x
      | cons e a =>
        rw [whole, List.cons_append, List.tail_cons] at tags
        refine ClosingTag.length?_of_ne ?_ _
        rintro rfl
        exact tags (by simp)
    have head : ∀ x : Text, ClosingTag.firstEnd? name (c :: x) =
        (ClosingTag.firstEnd? name x).map (· + 1) := by
      intro x
      rw [ClosingTag.firstEnd?, ClosingTag.length?_of_ne]
      rintro rfl
      revert ends
      decide
    rw [past named first, past tagged second, head, head]
    exact Meets.past ih.shift

/-- Literal blocks reach alike in both texts. -/
theorem literal_meets (settled : table.Settled)
    (foreign : table.canonical? Inert.literalName = none) (respelt : Respelt table s t) :
    Meets table s t (Inert.literalLength? s) (Inert.literalLength? t) := by
  have closes := respelt.firstEnd?_meets settled Inert.isPlain_literalName foreign
  have reach : Meets table s t (some ((ClosingTag.firstEnd? Inert.literalName s).getD s.length))
      (some ((ClosingTag.firstEnd? Inert.literalName t).getD t.length)) := by
    generalize ClosingTag.firstEnd? Inert.literalName s = x,
      ClosingTag.firstEnd? Inert.literalName t = y at closes
    cases closes with
    | none => exact .some (by simpa using .nil)
    | some rest => exact .some rest
  cases respelt with
  | nil => exact .none
  | @keep c s t rest =>
    cases found : Inert.literalLength? (c :: s) with
    | some n =>
      obtain ⟨w, tail, whole, tags, opens⟩ := Inert.split_of_literalLength? found
      obtain ⟨rfl, rfl⟩ := List.cons.inj whole
      obtain ⟨t', rfl, _⟩ := rest.split_unmarked tags
      rw [← found, opens, opens]
      exact reach
    | none =>
      cases found' : Inert.literalLength? (c :: t) with
      | none => exact .none
      | some n =>
        obtain ⟨w, tail, whole, tags, opens⟩ := Inert.split_of_literalLength? found'
        obtain ⟨rfl, rfl⟩ := List.cons.inj whole
        obtain ⟨s', rfl, _⟩ := rest.split_unmarked_new tags
        rw [opens] at found
        cases found
  | @token closing old tag c s t named tagged known ends rest =>
    obtain ⟨first, second⟩ := differs settled foreign known
    rw [Inert.literalLength?_of_token named ends first,
      Inert.literalLength?_of_token tagged ends second]
    exact .none

/-- Inert regions reach alike in both texts. -/
theorem region_meets (settled : table.Settled)
    (foreign : table.canonical? Inert.literalName = none) (respelt : Respelt table s t)
    (lineStart : Bool) :
    Meets table s t (Inert.regionLength? lineStart s) (Inert.regionLength? lineStart t) := by
  have code := respelt.code_meets lineStart
  have literal := respelt.literal_meets settled foreign
  unfold Inert.regionLength?
  generalize Code.regionLength? lineStart s = x, Code.regionLength? lineStart t = y at code
  cases code with
  | none => exact literal
  | some rest => exact .some rest

inductive Trails (table : SpellingTable) (s t : Text) : Option Text → Option Text → Prop
  | none : Trails table s t none none
  | some {a b x y : Text} (old : s = a ++ '>' :: x) (new : t = b ++ '>' :: y)
      (within : Respelt table a b) (rest : Respelt table x y) :
      Trails table s t (some a) (some b)

theorem Trails.past {u v : Text} {x y : Option Text} (front : Respelt table u v)
    (trails : Trails table s t x y) :
    Trails table (u ++ s) (v ++ t) (x.map (u ++ ·)) (y.map (v ++ ·)) := by
  cases trails with
  | none => exact .none
  | some old new within rest =>
    exact .some (by rw [old, List.append_assoc]) (by rw [new, List.append_assoc])
      (front.append within) rest

theorem attributes?_quoted {quote : Char} {w : Text} (unquoted : quote ∉ w) (s : Text) :
    OpeningTag.attributes? (some quote) (w ++ s) =
      (OpeningTag.attributes? (some quote) s).map (w ++ ·) := by
  induction w with
  | nil => simp
  | cons c w ih =>
    simp only [List.mem_cons, not_or] at unquoted
    rw [List.cons_append, OpeningTag.attributes?, if_neg (Ne.symm unquoted.1), ih unquoted.2,
      Option.map_map]
    rfl

/-- Attributes end alike in both texts. -/
theorem attributes?_trails (respelt : Respelt table s t) {quote : Option Char}
    (quotes : ∀ q, quote = some q → q = '"' ∨ q = '\'') :
    Trails table s t (OpeningTag.attributes? quote s) (OpeningTag.attributes? quote t) := by
  induction respelt generalizing quote with
  | nil => cases quote <;> exact .none
  | @keep c s t rest ih =>
    have single : Respelt table [c] [c] := .refl [c]
    cases quote with
    | some q =>
      refine (@ih (if c = q then none else some q) fun d same => ?_).past single
      split at same
      · cases same
      · exact quotes d same
    | none =>
      rw [OpeningTag.attributes?, OpeningTag.attributes?]
      by_cases bracket : c = '>'
      · rw [if_pos bracket, if_pos bracket]
        subst bracket
        exact .some rfl rfl .nil rest
      · rw [if_neg bracket, if_neg bracket]
        by_cases open' : c = '<'
        · rw [if_pos open', if_pos open']
          exact .none
        · rw [if_neg open', if_neg open']
          refine (@ih (if c = '"' ∨ c = '\'' then some c else none) fun d same => ?_).past single
          split at same
          · rename_i quoted
            rwa [← Option.some.inj same]
          · cases same
  | @token closing old tag c s t named tagged known ends rest ih =>
    cases quote with
    | none =>
      obtain ⟨slash, _, shape⟩ := TagToken.exists_slash closing
      rw [shape, shape]
      exact .none
    | some q =>
      have outside : ∀ {name : Text}, TagName name → q ∉ (TagToken.mk closing name).text := by
        intro name named
        rcases quotes q rfl with rfl | rfl
        · exact TagToken.not_mem_text named.isName (by decide) (by decide) (by decide)
        · exact TagToken.not_mem_text named.isName (by decide) (by decide) (by decide)
      have other : q ≠ c := by
        rintro rfl
        rcases quotes q rfl with rfl | rfl <;> exact absurd ends (by decide)
      have past : ∀ {name : Text}, TagName name → ∀ x : Text,
          OpeningTag.attributes? (some q) ((TagToken.mk closing name).text ++ c :: x) =
            (OpeningTag.attributes? (some q) x).map
              ((TagToken.mk closing name).text ++ [c] ++ ·) := by
        intro name named x
        rw [← attributes?_quoted (by simp [outside named, other]), List.append_assoc]
        rfl
      have front := Respelt.token closing named tagged known ends .nil
      have next := (ih quotes).past front
      rw [past named, past tagged]
      simpa using next

/-- Two opening tags, respelled, with what is behind them. Either they have one name, or the table
knows the name of each. -/
inductive Opens (table : SpellingTable) (s t : Text) : Option OpeningTag → Option OpeningTag → Prop
  | none : Opens table s t none none
  | some {tag tag' : OpeningTag} {x y : Text} (old : s = tag.text ++ x) (new : t = tag'.text ++ y)
      (within : Respelt table tag.text tag'.text) (rest : Respelt table x y)
      (names : tag'.name = tag.name ∨
        (table.canonical? tag.name).isSome = true ∧ (table.canonical? tag'.name).isSome = true) :
      Opens table s t (some tag) (some tag')

theorem Trails.opens {name name' : Text} {trail trail' : Option Text}
    (respells : ∀ {a b x : Text}, s = a ++ '>' :: x → Respelt table a b →
      Respelt table ('<' :: (name ++ (a ++ ['>']))) ('<' :: (name' ++ (b ++ ['>']))))
    (names : name' = name ∨
      (table.canonical? name).isSome = true ∧ (table.canonical? name').isSome = true)
    (trails : Trails table s t trail trail') :
    Opens table ('<' :: (name ++ s)) ('<' :: (name' ++ t)) (trail.map (⟨name, ·⟩))
      (trail'.map (⟨name', ·⟩)) := by
  cases trails with
  | none => exact .none
  | some old new within rest =>
    refine .some ?_ ?_ ?_ rest names
    · simp [OpeningTag.text, old]
    · simp [OpeningTag.text, new]
    · simpa [OpeningTag.text] using respells old within

/-- Tags open alike in both texts. -/
theorem read?_opens (settled : table.Settled) (respelt : Respelt table s t) :
    Opens table s t (OpeningTag.read? s) (OpeningTag.read? t) := by
  have bare : ∀ q : Char, (none : Option Char) = some q → q = '"' ∨ q = '\'' := by simp
  cases respelt with
  | nil => exact .none
  | @keep c s t rest =>
    by_cases bracket : c = '<'
    · subst bracket
      cases s with
      | nil =>
        rw [rest.eq_nil]
        exact .none
      | cons d s =>
        have head := rest.renamed.head
        by_cases letter : d.isAlpha = true
        · obtain ⟨w, x, rfl, named, stop⟩ := Text.exists_run Text.isNameChar s
          have other : '<' ∉ d :: w := by
            rw [List.mem_cons, not_or]
            refine ⟨?_, fun inside => absurd (named _ inside) (by decide)⟩
            rintro rfl
            exact absurd letter (by decide)
          obtain ⟨y, rfl, behind⟩ := split_unmarked (u := d :: w) other rest
          rw [← List.cons_append, OpeningTag.read?_name letter named stop,
            OpeningTag.read?_name letter named (by rwa [behind.renamed.head])]
          refine (behind.attributes?_trails bare).opens (fun _ within => ?_) (.inl rfl)
          exact ((within.append (.refl ['>'])).append_left (d :: w)).keep '<'
        · obtain ⟨t, rfl⟩ := List.head?_eq_some_iff.mp head
          simp only [OpeningTag.read?, if_neg letter]
          exact .none
    · rw [OpeningTag.read?_of_ne bracket, OpeningTag.read?_of_ne bracket]
      exact .none
  | @token closing old tag c s t named tagged known ends rest =>
    cases closing with
    | true => exact .none
    | false =>
      have stop := not_isNameChar_of_endsName ends
      have shape : ∀ {name : Text}, TagName name → ∀ x : Text,
          OpeningTag.read? ((TagToken.mk false name).text ++ c :: x) =
            (OpeningTag.attributes? none (c :: x)).map (⟨name, ·⟩) := by
        intro name named x
        obtain ⟨d, tail, rfl, letter⟩ := named.exists_cons
        exact OpeningTag.read?_name letter
          (fun e inside => named.letters e (List.mem_cons_of_mem _ inside)) (by simpa using stop)
      have knows : (table.canonical? old).isSome = true ∧ (table.canonical? tag).isSome = true := by
        rw [known, settled.fixed _ _ known]
        exact ⟨rfl, rfl⟩
      rw [shape named, shape tagged]
      refine ((rest.keep c).attributes?_trails bare).opens (fun {a b x} whole within => ?_)
        (.inr knows)
      · refine Respelt.token_front false named tagged known ?_ (within.append (.refl ['>']))
        cases a with
        | nil => rfl
        | cons e a =>
          obtain ⟨rfl, _⟩ := List.cons.inj whole
          simpa using ends

end Respelt

end MarkupActions
