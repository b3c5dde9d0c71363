import MarkupActions.Proofs.Letters
import MarkupActions.Proofs.Texts
import MarkupActions.Repair

/-!
# Scanning a tag

Where an angle bracket outside quotes is met, every scanner of tags has come to its end. So what
such a text is followed by has no influence on what is read at its head, whether a tag, its
attributes or a repair.
-/

namespace MarkupActions

namespace OpeningTag

/-- Whether an angle bracket outside quotes is met. The first argument is the quote that is open. -/
def settles : Option Char → Text → Bool
  | _, [] => false
  | some quote, c :: s => settles (if c = quote then none else some quote) s
  | none, c :: s => c == '<' || c == '>' || settles (if c = '"' ∨ c = '\'' then some c else none) s

/-- The characters with a property are neither angle brackets nor quotes. -/
def PassedOver (p : Char → Bool) : Prop :=
  ∀ c, p c = true → c ≠ '<' ∧ c ≠ '>' ∧ c ≠ '"' ∧ c ≠ '\''

theorem settles_cons {c : Char} (passed : c ≠ '<' ∧ c ≠ '>' ∧ c ≠ '"' ∧ c ≠ '\'') (u : Text) :
    settles none (c :: u) = settles none u := by
  obtain ⟨open', close, double, single⟩ := passed
  simp [settles, open', close, double, single]

theorem passedOver_of_not_mark {p : Char → Bool}
    (unmarked : ∀ c, p c = true → Text.isMark c = false) :
    PassedOver p := by
  intro c held
  have plain := unmarked c held
  refine ⟨?_, ?_, ?_, ?_⟩ <;> (rintro rfl; revert plain; decide)

theorem isNameChar_passedOver : PassedOver Text.isNameChar :=
  passedOver_of_not_mark fun _ => Text.not_mark_of_isNameChar

theorem isBlank_passedOver : PassedOver Text.isBlank :=
  passedOver_of_not_mark fun _ => Text.not_mark_of_isBlank

theorem isSpaceOrTab_passedOver : PassedOver Text.isSpaceOrTab := by
  intro c held
  simp only [Text.isSpaceOrTab, Bool.or_eq_true, beq_iff_eq] at held
  rcases held with rfl | rfl <;> decide

theorem isBare_passedOver : PassedOver Attribute.isBare := by
  intro c held
  simp only [Attribute.isBare, Attribute.isQuote, Bool.not_eq_true', Bool.or_eq_false_iff,
    beq_eq_false_iff_ne]
    at held
  exact ⟨held.1.1.2, held.1.2, held.1.1.1.2.1, held.1.1.1.2.2⟩

/-- What holds of the rest of a tag, given the quote that is open, and goes on to hold behind each
character that is no angle bracket outside quotes. -/
structure Carried (P : Option Char → Text → Prop) : Prop where
  quoted : ∀ {quote c s}, P (some quote) (c :: s) → P (if c = quote then none else some quote) s
  plain : ∀ {c s}, c ≠ '<' → c ≠ '>' → P none (c :: s) →
    P (if c = '"' ∨ c = '\'' then some c else none) s

theorem settles_carried : Carried fun quote s => settles quote s = true where
  quoted within := within
  plain open' close within := by simpa [settles, open', close] using within

variable {p : Char → Bool} {u : Text}

theorem settles_dropWhile (passed : PassedOver p) :
    settles none (u.dropWhile p) = settles none u := by
  induction u with
  | nil => rfl
  | cons c u ih =>
    by_cases held : p c
    · rw [List.dropWhile_cons_of_pos held, ih, settles_cons (passed c held)]
    · rw [List.dropWhile_cons_of_neg held]

/-- A run of passed characters ends within a text that settles. -/
theorem dropWhile_append (passed : PassedOver p) (within : settles none u = true) (s : Text) :
    (u ++ s).dropWhile p = u.dropWhile p ++ s := by
  have left : u.dropWhile p ≠ [] := by
    intro empty
    rw [← settles_dropWhile passed, empty] at within
    cases within
  rw [List.dropWhile_append, if_neg (by simpa using left)]

theorem takeWhile_append (passed : PassedOver p) (within : settles none u = true) (s : Text) :
    (u ++ s).takeWhile p = u.takeWhile p := by
  have split := List.takeWhile_append_dropWhile (p := p) (l := u ++ s)
  rw [dropWhile_append passed within, ← List.append_assoc] at split
  have whole := List.append_cancel_right split
  have parts := List.takeWhile_append_dropWhile (p := p) (l := u)
  exact List.append_cancel_right (whole.trans parts.symm)

theorem settles_append {quote : Option Char} (within : settles quote u = true) (s : Text) :
    settles quote (u ++ s) = true := by
  induction u generalizing quote with
  | nil => cases within
  | cons c u ih =>
    cases quote with
    | some q => exact ih within
    | none =>
      simp only [List.cons_append, settles, Bool.or_eq_true] at within ⊢
      exact within.imp_right ih

theorem attributes?_append {quote : Option Char} (within : settles quote u = true) (s : Text) :
    attributes? quote (u ++ s) = attributes? quote u := by
  induction u generalizing quote with
  | nil => simp [settles] at within
  | cons c u ih =>
    cases quote with
    | some q =>
      rw [settles] at within
      simp only [List.cons_append, attributes?, ih within]
    | none =>
      by_cases close : c = '>'
      · simp [attributes?, close]
      · by_cases opens : c = '<'
        · simp [attributes?, opens]
        · simp only [settles, beq_iff_eq, Bool.or_eq_true, opens, close, false_or] at within
          simp only [List.cons_append, attributes?, close, opens, if_false, ih within]

/-- What follows a text that settles does not change the tag at its head. -/
theorem read?_append (within : settles none u = true) (s : Text) :
    read? ('<' :: (u ++ s)) = read? ('<' :: u) := by
  cases u with
  | nil => simp [settles] at within
  | cons c u =>
    by_cases letter : c.isAlpha
    · have passed : c ≠ '<' ∧ c ≠ '>' ∧ c ≠ '"' ∧ c ≠ '\'' := by
        refine ⟨?_, ?_, ?_, ?_⟩ <;> (rintro rfl; revert letter; decide)
      rw [settles_cons passed] at within
      have name := takeWhile_append isNameChar_passedOver within s
      have tail := dropWhile_append isNameChar_passedOver within s
      have settled : settles none (u.dropWhile Text.isNameChar) = true :=
        (settles_dropWhile isNameChar_passedOver).trans within
      simp only [List.cons_append, read?, letter, if_true, name, tail, attributes?_append settled]
    · simp [read?, letter]

namespace Carried

variable {P : Option Char → Text → Prop}

theorem dropWhile (carried : Carried P) (passed : PassedOver p) (within : P none u) :
    P none (u.dropWhile p) := by
  induction u with
  | nil => exact within
  | cons c u ih =>
    by_cases held : p c
    · obtain ⟨open', close, double, single⟩ := passed c held
      rw [List.dropWhile_cons_of_pos held]
      exact ih (by simpa [double, single] using carried.plain open' close within)
    · rw [List.dropWhile_cons_of_neg held]
      exact within

theorem of_isQuote (carried : Carried P) {c : Char} (quote : Attribute.isQuote c = true)
    (within : P none (c :: u)) : P (some c) u := by
  have either : c = '"' ∨ c = '\'' := by simpa [Attribute.isQuote] using quote
  have apart : c ≠ '<' ∧ c ≠ '>' := by rcases either with rfl | rfl <;> decide
  simpa [either] using carried.plain apart.1 apart.2 within

theorem quoted? (carried : Carried P) {quote : Char} {v : Text} (within : P (some quote) u)
    (found : Attribute.quoted? quote u = some v) : P none (u.drop (v.length + 1)) := by
  induction u generalizing v with
  | nil => cases found
  | cons c u ih =>
    by_cases closes : c = quote
    · simp only [Attribute.quoted?, closes, if_true, Option.some.injEq] at found
      subst found
      simpa [closes] using carried.quoted within
    · simp only [Attribute.quoted?, closes, if_false, Option.map_eq_some_iff] at found
      obtain ⟨tail, inner, rfl⟩ := found
      exact ih (by simpa [closes] using carried.quoted within) inner

end Carried

end OpeningTag

namespace Repair

open OpeningTag

variable {u : Text}

theorem settles_drop_length {n : Nat} (within : settles none (u.drop n) = true) : n < u.length := by
  by_cases past : u.length ≤ n
  · rw [List.drop_eq_nil_of_le past] at within
    cases within
  · omega

theorem drop_append_of_settles {n : Nat} (within : settles none (u.drop n) = true) (s : Text) :
    (u ++ s).drop n = u.drop n ++ s :=
  List.drop_append_of_le_length (Nat.le_of_lt (settles_drop_length within))

theorem quoted?_append {quote : Char} (within : settles (some quote) u = true) (s : Text) :
    Attribute.quoted? quote (u ++ s) = Attribute.quoted? quote u := by
  induction u with
  | nil => cases within
  | cons c u ih =>
    by_cases closes : c = quote
    · simp [Attribute.quoted?, closes]
    · simp only [settles, closes, if_false] at within
      simp [Attribute.quoted?, closes, ih within]

theorem valueLength?_append (within : settles none u = true) (s : Text) :
    valueLength? (u ++ s) = valueLength? u := by
  cases u with
  | nil => cases within
  | cons c u =>
    by_cases quote : Attribute.isQuote c
    · simp only [List.cons_append, valueLength?, quote, if_true, quotedLength?,
        quoted?_append (settles_carried.of_isQuote quote within)]
    · have bare := takeWhile_append isBare_passedOver within s
      simp only [List.cons_append] at bare
      simp [valueLength?, quote, bare]

/-- A value stands in quotes, or it is as long as its characters may stand without. -/
theorem valueLength?_inv {n : Nat} (found : valueLength? u = some n) :
    (∃ quote s v, u = quote :: s ∧ Attribute.isQuote quote = true ∧
      Attribute.quoted? quote s = some v ∧
      n = v.length + 2) ∨
      (0 < n ∧ n = (u.takeWhile Attribute.isBare).length) := by
  cases u with
  | nil => cases found
  | cons c u =>
    by_cases quote : Attribute.isQuote c
    · simp only [valueLength?, quote, if_true, quotedLength?, Option.bind_eq_some_iff] at found
      obtain ⟨v, inner, found⟩ := found
      split at found
      · cases found
      · exact .inl ⟨c, u, v, rfl, quote, inner, (Option.some.inj found).symm⟩
    · simp only [valueLength?, quote, Bool.false_eq_true, if_false, Option.ite_none_left_eq_some,
        Option.some.injEq] at found
      exact .inr ⟨by omega, found.2.symm⟩

theorem valueLength?_pos {n : Nat} (found : valueLength? u = some n) : 0 < n := by
  rcases valueLength?_inv found with ⟨_, _, v, _, _, _, rfl⟩ | ⟨positive, _⟩
  · omega
  · exact positive

theorem carried_valueLength? {P : Option Char → Text → Prop} (carried : Carried P) {n : Nat}
    (within : P none u)
    (found : valueLength? u = some n) : P none (u.drop n) := by
  rcases valueLength?_inv found with ⟨quote, s, v, rfl, marks, inner, rfl⟩ | ⟨_, rfl⟩
  · exact carried.quoted? (carried.of_isQuote marks within) inner
  · rw [Text.drop_takeWhile_length]
    exact carried.dropWhile isBare_passedOver within

theorem afterEquals?_eq (s : Text) :
    afterEquals? s =
      if (s.takeWhile Text.isNameChar).isEmpty then none
      else match (s.dropWhile Text.isNameChar).dropWhile Text.isBlank with
        | '=' :: rest => some (rest.dropWhile Text.isBlank)
        | _ => none := by
  simp only [afterEquals?, Text.trimStart, Text.drop_takeWhile_length]
  rfl

theorem afterEquals?_append (within : settles none u = true) (s : Text) :
    afterEquals? (u ++ s) = (afterEquals? u).map (· ++ s) := by
  have settled : settles none (u.dropWhile Text.isNameChar) = true :=
    (settles_dropWhile isNameChar_passedOver).trans within
  have left : settles none ((u.dropWhile Text.isNameChar).dropWhile Text.isBlank) = true :=
    (settles_dropWhile isBlank_passedOver).trans settled
  rw [afterEquals?_eq, afterEquals?_eq, takeWhile_append isNameChar_passedOver within,
    dropWhile_append isNameChar_passedOver within, dropWhile_append isBlank_passedOver settled]
  generalize (u.dropWhile Text.isNameChar).dropWhile Text.isBlank = w at left
  by_cases empty : (u.takeWhile Text.isNameChar).isEmpty
  · simp [empty]
  · cases w with
    | nil => cases left
    | cons c w =>
      by_cases equals : c = '='
      · subst equals
        rw [settles_cons (by decide)] at left
        simp [empty, dropWhile_append isBlank_passedOver left]
      · simp [empty, equals]

theorem carried_afterEquals? {P : Option Char → Text → Prop} (carried : Carried P) {tail : Text}
    (within : P none u)
    (found : afterEquals? u = some tail) : P none tail := by
  have left := carried.dropWhile isBlank_passedOver (carried.dropWhile isNameChar_passedOver within)
  rw [afterEquals?_eq] at found
  split at found
  · cases found
  · split at found
    · rename_i rest equals
      rw [equals] at left
      rw [← Option.some.inj found]
      exact carried.dropWhile isBlank_passedOver
        (by simpa using carried.plain (by decide) (by decide) left)
    · cases found

theorem afterEquals?_suffix {tail : Text} (found : afterEquals? u = some tail) : tail <:+ u := by
  rw [afterEquals?_eq] at found
  split at found
  · cases found
  · split at found
    · rename_i rest equals
      rw [← Option.some.inj found]
      have inner : rest <:+ (u.dropWhile Text.isNameChar).dropWhile Text.isBlank := by
        rw [equals]
        exact List.suffix_cons _ _
      exact (List.dropWhile_suffix _).trans
        (inner.trans ((List.dropWhile_suffix _).trans (List.dropWhile_suffix _)))
    · cases found

theorem trimStart_suffix (s : Text) : Text.trimStart s <:+ s := List.dropWhile_suffix _

theorem attributeLength?_append (within : settles none u = true) (s : Text) :
    attributeLength? (u ++ s) = attributeLength? u := by
  have settled : settles none (Text.trimStart u) = true :=
    (settles_dropWhile isBlank_passedOver).trans within
  have trimmed : Text.trimStart (u ++ s) = Text.trimStart u ++ s :=
    dropWhile_append isBlank_passedOver within s
  simp only [attributeLength?, trimmed, List.length_append, Nat.add_right_cancel_iff]
  split
  · rfl
  · rw [afterEquals?_append settled]
    cases found : afterEquals? (Text.trimStart u) with
    | none => rfl
    | some tail =>
      have left := carried_afterEquals? settles_carried settled found
      simp [valueLength?_append left, Nat.add_sub_add_right]

/-- An attribute is its name with the white space around it, and its value. -/
theorem attributeLength?_split {n : Nat} (found : attributeLength? u = some n) :
    ∃ front tail m, u = front ++ tail ∧ afterEquals? (Text.trimStart u) = some tail ∧
      valueLength? tail = some m ∧ n = front.length + m := by
  simp only [attributeLength?] at found
  split at found
  · cases found
  · obtain ⟨tail, equals, found⟩ := Option.bind_eq_some_iff.mp found
    obtain ⟨m, value, found⟩ := Option.bind_eq_some_iff.mp found
    obtain ⟨front, whole⟩ := (afterEquals?_suffix equals).trans (trimStart_suffix u)
    refine ⟨front, tail, m, whole.symm, equals, value, ?_⟩
    rw [← Option.some.inj found, ← whole]
    simp

theorem attributeLength?_pos {n : Nat} (found : attributeLength? u = some n) : 0 < n := by
  obtain ⟨front, tail, m, _, _, value, rfl⟩ := attributeLength?_split found
  have pos := valueLength?_pos value
  omega

theorem carried_attributeLength? {P : Option Char → Text → Prop} (carried : Carried P) {n : Nat}
    (within : P none u)
    (found : attributeLength? u = some n) : P none (u.drop n) := by
  obtain ⟨front, tail, m, whole, equals, value, rfl⟩ := attributeLength?_split found
  have settled : P none (Text.trimStart u) := carried.dropWhile isBlank_passedOver within
  have rest := carried_valueLength? carried (carried_afterEquals? carried settled equals) value
  rw [whole, List.drop_append, List.drop_eq_nil_of_le (by omega)]
  simpa using rest

theorem attributesLength?_eq (s : Text) :
    attributesLength? s =
      (attributeLength? s).bind fun n =>
        match attributesLength? (s.drop n) with
        | some m => some (n + m)
        | none => if endsLine (s.drop n) then some n else none := by
  cases s with
  | nil => rw [attributesLength?.eq_def]; rfl
  | cons c s =>
    rw [attributesLength?.eq_def]
    cases found : attributeLength? (c :: s) with
    | none => simp [found]
    | some n =>
      obtain ⟨k, rfl⟩ : ∃ k, n = k + 1 :=
        ⟨n - 1, (Nat.sub_add_cancel (attributeLength?_pos found)).symm⟩
      simp only [found]
      rfl

theorem endsLine_append (within : settles none u = true) (s : Text) :
    endsLine (u ++ s) = endsLine u := by
  have settled : settles none (u.dropWhile Text.isSpaceOrTab) = true :=
    (settles_dropWhile isSpaceOrTab_passedOver).trans within
  rw [endsLine, endsLine, dropWhile_append isSpaceOrTab_passedOver within]
  cases left : u.dropWhile Text.isSpaceOrTab with
  | nil => rw [left] at settled; cases settled
  | cons c w => rfl

theorem attributesLength?_append (within : settles none u = true) (s : Text) :
    attributesLength? (u ++ s) = attributesLength? u := by
  induction size : u.length using Nat.strongRecOn generalizing u with
  | ind size ih =>
    rw [attributesLength?_eq (u ++ s), attributesLength?_eq u, attributeLength?_append within]
    cases found : attributeLength? u with
    | none => rfl
    | some n =>
      have left := carried_attributeLength? settles_carried within found
      have pos := attributeLength?_pos found
      have short := settles_drop_length left
      have rest := ih (u.drop n).length (by simp; omega) left rfl
      simp only [Option.bind_some, drop_append_of_settles left, rest, endsLine_append left]

/-- How far attributes reach that follow each other at the head of a text, the last of them to the
end of a row. -/
inductive AttributeRun : Text → Nat → Prop
  | last {s : Text} {n : Nat} (read : attributeLength? s = some n)
      (ended : endsLine (s.drop n) = true) : AttributeRun s n
  | next {s : Text} {n m : Nat} (read : attributeLength? s = some n)
      (rest : AttributeRun (s.drop n) m) :
      AttributeRun s (n + m)

theorem attributeRun_of_length? {n : Nat} (found : attributesLength? u = some n) :
    AttributeRun u n := by
  induction size : u.length using Nat.strongRecOn generalizing u n with
  | ind size ih =>
    rw [attributesLength?_eq] at found
    obtain ⟨first, read, found⟩ := Option.bind_eq_some_iff.mp found
    split at found
    · rename_i m more
      have positive := attributeLength?_pos read
      have some' : u ≠ [] := by
        rintro rfl
        cases read
      have size' := List.length_pos_of_ne_nil some'
      rw [← Option.some.inj found]
      exact .next read (ih (u.drop first).length (by simp; omega) more rfl)
    · split at found
      · rename_i ended
        rw [← Option.some.inj found]
        exact .last read ended
      · cases found

theorem AttributeRun.carried {P : Option Char → Text → Prop} {n : Nat} (run : AttributeRun u n)
    (carried : Carried P)
    (within : P none u) : P none (u.drop n) := by
  induction run with
  | last read => exact carried_attributeLength? carried within read
  | next read _ ih =>
    rw [← List.drop_drop]
    exact ih (carried_attributeLength? carried within read)

/-- What is neither an end nor a slash goes on with an equals sign or not at all. -/
theorem goesOn_of_other (close : (Text.trimStart u).head? ≠ some '>')
    (slash : (Text.trimStart u).head? ≠ some '/') :
    goesOn u = (afterEquals? (Text.trimStart u)).isSome := by
  unfold goesOn
  split
  · rename_i whole
    exact False.elim (close (by rw [whole]; rfl))
  · rename_i whole
    exact False.elim (slash (by rw [whole]; rfl))
  · rfl

theorem goesOn_append (within : settles none u = true) (s : Text) : goesOn (u ++ s) = goesOn u := by
  have settled : settles none (Text.trimStart u) = true :=
    (settles_dropWhile isBlank_passedOver).trans within
  have trimmed : Text.trimStart (u ++ s) = Text.trimStart u ++ s :=
    dropWhile_append isBlank_passedOver within s
  have equals := afterEquals?_append settled s
  by_cases close : (Text.trimStart u).head? = some '>'
  · obtain ⟨w, whole⟩ := List.head?_eq_some_iff.mp close
    rw [goesOn, goesOn, trimmed, whole]
    rfl
  · by_cases slash : (Text.trimStart u).head? = some '/'
    · obtain ⟨v, whole⟩ := List.head?_eq_some_iff.mp slash
      rw [goesOn, goesOn, trimmed, whole]
      rw [whole] at settled equals
      rw [settles_cons (by decide)] at settled
      cases v with
      | nil => cases settled
      | cons d v =>
        by_cases closes : d = '>'
        · subst closes
          rfl
        · simp only [List.cons_append] at equals ⊢
          simp [closes, equals]
    · have head : (Text.trimStart (u ++ s)).head? = (Text.trimStart u).head? := by
        rw [trimmed]
        cases left : Text.trimStart u with
        | nil =>
          rw [left] at settled
          cases settled
        | cons c w => rfl
      rw [goesOn_of_other close slash, goesOn_of_other (by rwa [head]) (by rwa [head]), trimmed,
        equals, Option.isSome_map]

theorem afterFolded?_append {name : Text} (plain : Text.IsPlain name)
    (within : settles none u = true) (s : Text) :
    Text.afterFolded? name (u ++ s) = (Text.afterFolded? name u).map (· ++ s) := by
  induction name generalizing u with
  | nil => rfl
  | cons n name ih =>
    cases u with
    | nil => cases within
    | cons c u =>
      by_cases same : Text.sameFolded c n
      · have named := Text.isNameChar_of_sameFolded (plain n List.mem_cons_self) same
        rw [settles_cons (isNameChar_passedOver c named)] at within
        simp only [List.cons_append, Text.afterFolded?, same, if_true]
        exact ih (fun m inside => plain m (List.mem_cons_of_mem _ inside)) within
      · simp [Text.afterFolded?, same]

theorem settles_afterFolded? {name rest : Text} (plain : Text.IsPlain name)
    (within : settles none u = true)
    (found : Text.afterFolded? name u = some rest) :
    settles none rest = true ∧ ∃ front, u = front ++ rest ∧ front.length = name.length := by
  obtain ⟨front, rfl, matched⟩ := Text.afterFolded?_eq_some.mp found
  have named := Text.isNameChar_of_matched plain matched
  refine ⟨?_, front, rfl, matched.length_eq.symm⟩
  have left : (front ++ rest).dropWhile Text.isNameChar = rest.dropWhile Text.isNameChar :=
    List.dropWhile_append_of_pos named
  rw [← settles_dropWhile isNameChar_passedOver, left, settles_dropWhile isNameChar_passedOver]
    at within
  exact within

theorem findSome?_congr {α β : Type} {f g : α → Option β} {l : List α} (same : ∀ a ∈ l, f a = g a) :
    l.findSome? f = l.findSome? g := by
  induction l with
  | nil => rfl
  | cons a l ih =>
    rw [List.findSome?_cons, List.findSome?_cons, same a List.mem_cons_self,
      ih fun b inside => same b (List.mem_cons_of_mem _ inside)]

/-- What follows a text that settles does not change how an unfinished tag at its head is mended. -/
theorem unterminatedSelfClosingRule_append {names : List Text}
    (plain : ∀ name ∈ names, Text.IsPlain name)
    (within : settles none u = true) (s : Text) :
    unterminatedSelfClosingRule names ('<' :: (u ++ s)) = unterminatedSelfClosingRule names
      ('<' :: u) := by
  refine findSome?_congr fun name inside => ?_
  rw [afterFolded?_append (plain name inside) within]
  cases found : Text.afterFolded? name u with
  | none => rfl
  | some rest =>
    obtain ⟨settled, front, rfl, size⟩ := settles_afterFolded? (plain name inside) within found
    simp only [Option.map_some, Option.bind_eq_bind, Option.bind_some,
      attributesLength?_append settled]
    cases attributes : attributesLength? rest with
    | none => rfl
    | some n =>
      have left := (attributeRun_of_length? attributes).carried settles_carried settled
      have short := settles_drop_length left
      have blanks := takeWhile_append isSpaceOrTab_passedOver left s
      have after : (rest ++ s).drop (n + ((rest.drop n).takeWhile Text.isSpaceOrTab).length) =
          (rest.drop n).dropWhile Text.isSpaceOrTab ++ s := by
        rw [← List.drop_drop, drop_append_of_settles left,
          ← dropWhile_append isSpaceOrTab_passedOver left, ← Text.drop_takeWhile_length, blanks]
      have afterToo : rest.drop (n + ((rest.drop n).takeWhile Text.isSpaceOrTab).length) =
          (rest.drop n).dropWhile Text.isSpaceOrTab := by
        rw [← List.drop_drop, Text.drop_takeWhile_length]
      have goes := goesOn_append ((settles_dropWhile isSpaceOrTab_passedOver).trans left) s
      have tag : ((front ++ rest) ++ s).take (name.length + n) =
        (front ++ rest).take (name.length + n) :=
        List.take_append_of_le_length (by simp; omega)
      simp only [Option.bind_some, drop_append_of_settles left, blanks, after, afterToo, goes, tag]

end Repair

end MarkupActions
