import MarkupActions.Proofs.Edits
import MarkupActions.Registry.Extract

/-!
# Patching a text

Local changes made from left to right are edits one after the other, and a stretch in which no
change is made stands as it is. The repairs of the built-in families are such changes; each begins
at an angle bracket.
-/

namespace MarkupActions

namespace Text

variable {patch : Patch}

theorem patchAll_of_none {c : Char} {s : Text} (quiet : patch (c :: s) = none) :
    patchAll patch (c :: s) = c :: patchAll patch s := by
  rw [patchAll, quiet]

theorem patchAll_of_some {front back new : Text}
    (found : patch (front ++ back) = some (front.length, new))
    (more : front ≠ []) : patchAll patch (front ++ back) = new ++ patchAll patch back := by
  obtain ⟨c, front, rfl⟩ := List.exists_cons_of_ne_nil more
  rw [List.cons_append] at found ⊢
  rw [patchAll, found]
  simp

/-- Induction along the changes that are made: it goes on character by character where there is
none, and past all that one takes out. -/
theorem patchAll_induct {change : Text → Text → Text → Prop}
    (changes : ∀ s n new, patch s = some (n, new) →
      ∃ front back, s = front ++ back ∧ front.length = n ∧ front ≠ [] ∧ change front back new)
    {motive : Text → Prop} (nil : motive [])
    (keep : ∀ c s, patch (c :: s) = none → motive s → motive (c :: s))
    (patched : ∀ front back new, patch (front ++ back) = some (front.length, new) → front ≠ [] →
      change front back new →
      motive back → motive (front ++ back)) (s : Text) : motive s := by
  induction size : s.length using Nat.strongRecOn generalizing s with
  | ind size ih =>
    subst size
    cases s with
    | nil => exact nil
    | cons c s =>
      cases found : patch (c :: s) with
      | none => exact keep c s found (ih s.length (by simp) s rfl)
      | some change =>
        obtain ⟨n, new⟩ := change
        obtain ⟨front, back, whole, rfl, more, made⟩ := changes _ n new found
        have less : back.length < (c :: s).length := by
          rw [whole, List.length_append]
          have := List.length_pos_of_ne_nil more
          omega
        rw [whole] at found ⊢
        exact patched front back new found more made (ih back.length less back rfl)

/-- A stretch in which nothing is changed stands as it is. -/
theorem patchAll_append {v s : Text} (quiet : ∀ a b, v = a ++ b → b ≠ [] → patch (b ++ s) = none) :
    patchAll patch (v ++ s) = v ++ patchAll patch s := by
  induction v with
  | nil => rfl
  | cons c v ih =>
    have here : patch (c :: (v ++ s)) = none := quiet [] (c :: v) rfl (by simp)
    rw [List.cons_append, patchAll_of_none here, ih fun a b whole =>
      quiet (c :: a) b (by rw [whole]; rfl)]
    rfl

theorem patchAll_of_quiet {s : Text} (quiet : ∀ a b, s = a ++ b → b ≠ [] → patch b = none) :
    patchAll patch s = s := by
  have same := patchAll_append (v := s) (s := []) fun a b split more => by
    simpa using quiet a b split more
  rwa [List.append_nil, patchAll, List.append_nil] at same

/-- Changes that are edits where they are made amount to edits of the whole. -/
theorem patchAll_rewrites {edit : Text → Text → Prop}
    (edits : ∀ s n new, patch s = some (n, new) → ∃ front back, s = front ++ back ∧
      front.length = n ∧ front ≠ [] ∧
      Rewrites edit front new) (s : Text) : Rewrites edit s (patchAll patch s) := by
  induction s using patchAll_induct edits with
  | nil =>
    rw [patchAll]
    exact .refl []
  | keep c s quiet ih =>
    rw [patchAll_of_none quiet]
    exact ih.cons c
  | patched front back new found more made ih =>
    rw [patchAll_of_some found more]
    exact made.append ih

end Text

namespace Repair

/-- The change that a repair makes at the head of a text. -/
def rule : Repair → Text.Patch
  | strayQuote tags => strayQuoteRule (names tags)
  | unterminatedClosing tags => unterminatedClosingRule (names tags)
  | unterminatedSelfClosing tags => unterminatedSelfClosingRule (names tags)
  | literal old new => fun s => if old.isPrefixOf s then some (old.length, new) else none

def sought : Repair → List Text
  | strayQuote tags => names tags
  | unterminatedClosing tags => names tags
  | unterminatedSelfClosing tags => names tags
  | literal _ _ => []

def endsOpening : Repair → Bool
  | unterminatedSelfClosing _ => true
  | _ => false

/-- Whether a name is one that tags may have: in lower case, a letter in front, and no beginning of
`literal`. -/
def fits (name : Text) : Bool :=
  name.head?.any Char.isLower && name.all Text.isPlainLetter && !name.isPrefixOf Inert.literalName

/-- Whether a repair is one of tags, with names that tags may have. -/
def mendsTags : Repair → Bool
  | literal _ _ => false
  | repair => repair.sought.all fits

theorem builtIn_mendsTags : ∀ family ∈ Family.builtIn, ∀ repair ∈ family.repairs, repair.mendsTags =
    true := by
  decide

theorem apply_eq {repair : Repair} (orderly : repair.mendsTags = true) (s : Text) :
    repair.apply s = Text.patchAll repair.rule s := by
  cases repair with
  | literal old new => cases orderly
  | _ => rfl

theorem isPlain_of_fits {name : Text} (orderly : fits name = true) : Text.IsPlain name := by
  simp only [fits, Bool.and_eq_true, List.all_eq_true] at orderly
  exact orderly.1.2

theorem sought_fits {repair : Repair} (orderly : repair.mendsTags = true) :
    ∀ name ∈ repair.sought, fits name = true := by
  cases repair with
  | literal old new => cases orderly
  | _ => exact List.all_eq_true.mp orderly

theorem strayQuoteRule_rewrites {names : List Text} {s new : Text} {n : Nat}
    (fires : strayQuoteRule names s = some (n, new)) :
    ∃ front back, s = '<' :: front ++ back ∧ ('<' :: front).length = n ∧ Rewrites Mends
      ('<' :: front) new := by
  obtain ⟨lead, front, quotes, rest, leads, rfl, _, _, quoted, rfl, rfl⟩ := strayQuoteRule_inv fires
  have made : Rewrites Mends (lead ++ (front ++ (quotes ++ ['>']))) (lead ++ (front ++ ['>'])) :=
    ((Rewrites.single (.unquotes quoted)).append_left front).append_left lead
  rcases leads with rfl | rfl
  · exact ⟨front ++ (quotes ++ ['>']), rest, by simp, by simp; omega, made⟩
  · exact ⟨'/' :: (front ++ (quotes ++ ['>'])), rest, by simp, by simp; omega, made⟩

theorem unterminatedClosingRule_rewrites {names : List Text} {s new : Text} {n : Nat}
    (fires : unterminatedClosingRule names s = some (n, new)) :
    ∃ front back, s = '<' :: front ++ back ∧ ('<' :: front).length = n ∧ Rewrites Closes
      ('<' :: front) new := by
  obtain ⟨front, rest, rfl, _, ⟨empty, rfl, rfl⟩ | ⟨c, tail, stops, _, _, rfl, rfl⟩⟩ :=
    unterminatedClosingRule_inv fires
  · have blank : ∀ c ∈ rest, Text.isBlank c = true := List.dropWhile_eq_nil_iff.mp empty
    refine ⟨'/' :: (front ++ rest), [], by simp, by simp; omega, ?_⟩
    exact (((Rewrites.single (.bracket blank)).append_left front).cons '/').cons '<'
  · have whole := List.takeWhile_append_dropWhile (p := Text.isBlank) (l := rest)
    rw [stops] at whole
    refine ⟨'/' :: (front ++ (rest.takeWhile Text.isBlank ++ [c])), tail, ?_, by simp; omega, ?_⟩
    · simp only [List.cons_append, List.append_assoc, List.nil_append, whole]
    · have inserted : Rewrites Closes [] ['>'] := .single (.bracket (by simp))
      exact (((inserted.append_right (rest.takeWhile Text.isBlank ++ [c])).append_left front).cons
        '/').cons '<'

/-- A closing tag that is ended behind a text is ended before the blanks there, and what follows
these stays. -/
theorem unterminatedClosingRule_stop {names : List Text} (plain : ∀ name ∈ names, Text.IsPlain name)
    {content past new : Text}
    {stop : Char} {n : Nat} (dark : Text.isBlank stop = false)
    (unnamed : Text.isNameChar stop = false) (slash : stop ≠ '/')
    (fires : unterminatedClosingRule names ('<' :: (content ++ stop :: past)) = some (n, new))
    (long : ('<' :: content).length < n) :
    ∃ content', n = ('<' :: content ++ [stop]).length ∧ new = content' ++ [stop] ∧ Rewrites Closes
      ('<' :: content) content' := by
  obtain ⟨front, rest, whole, ⟨name, listed, matched⟩, ended⟩ := unterminatedClosingRule_inv fires
  have letters := Text.isNameChar_of_matched (plain name listed) matched
  have apart : stop ∉ '/' :: front := by
    simp only [List.mem_cons, not_or]
    refine ⟨slash, fun inside => ?_⟩
    rw [letters stop inside] at unnamed
    cases unnamed
  have split : ('/' :: front) ++ rest = content ++ stop :: past := (List.cons.inj whole).2.symm
  rcases Text.append_eq_append_cons split with ⟨m, inner, _⟩ | ⟨m, rfl, rfl⟩
  · exact False.elim (apart (by rw [inner]; simp))
  · rcases ended with ⟨empty, _⟩ | ⟨c, tail, stops, _, _, rfl, rfl⟩
    · have blank := List.dropWhile_eq_nil_iff.mp empty stop (by simp)
      rw [dark] at blank
      cases blank
    · have blank : ∀ c ∈ m, Text.isBlank c = true := by
        by_contra other
        -- otherwise the blanks end within the text, and no more than one character of it is taken
        -- with them
        have short : ((m ++ stop :: past).takeWhile Text.isBlank).length < m.length := by
          rw [List.takeWhile_append]
          split
          · rename_i all
            exact False.elim (other (List.takeWhile_eq_self_iff.mp
              ((List.takeWhile_sublist _).eq_of_length all)))
          · rename_i some'
            have bound := (List.takeWhile_sublist (l := m) Text.isBlank).length_le
            omega
        simp only [List.length_append, List.length_cons] at long
        omega
      rw [Text.takeWhile_exact blank (by simpa using dark)]
      rw [Text.dropWhile_exact blank (by simpa using dark)] at stops
      obtain ⟨rfl, _⟩ := List.cons.inj stops
      have inserted : Rewrites Closes [] ['>'] := .single (.bracket (by simp))
      have made := (((inserted.append_right m).append_left front).cons '/').cons '<'
      refine ⟨'<' :: '/' :: (front ++ (['>'] ++ m)), ?_, by simp, by simpa using made⟩
      simp only [List.length_append, List.length_cons, List.length_nil]
      omega

theorem unterminatedSelfClosingRule_rewrites {names : List Text} {s new : Text} {n : Nat}
    (fires : unterminatedSelfClosingRule names s = some (n, new)) :
    ∃ front back, s = '<' :: front ++ back ∧ ('<' :: front).length = n ∧ Rewrites Closes
      ('<' :: front) new := by
  obtain ⟨front, attributes, blanks, rest, rfl, _, spaces, rfl, written, _⟩ :=
    unterminatedSelfClosingRule_inv fires
  refine ⟨front ++ (attributes ++ blanks), rest, by simp, by simp; omega, ?_⟩
  have blank : ∀ c ∈ blanks, Text.isBlank c = true :=
    fun c inside => Text.isBlank_of_isSpaceOrTab (spaces c inside)
  rcases written with rfl | rfl
  · exact .refl _
  · exact (((Rewrites.single (.slash blank)).append_left attributes).append_left front).cons '<'

/-- A repair edits the head of a text, which begins at an angle bracket. -/
theorem rule_rewrites {repair : Repair} (orderly : repair.mendsTags = true) {s new : Text} {n : Nat}
    (fires : repair.rule s = some (n, new)) :
    ∃ front back, s = '<' :: front ++ back ∧ ('<' :: front).length = n ∧ Rewrites Mends
      ('<' :: front) new := by
  cases repair with
  | literal old new => cases orderly
  | strayQuote tags => exact strayQuoteRule_rewrites fires
  | unterminatedClosing tags =>
    obtain ⟨front, back, whole, size, made⟩ := unterminatedClosingRule_rewrites fires
    exact ⟨front, back, whole, size, made.mono fun _ _ => .closes⟩
  | unterminatedSelfClosing tags =>
    obtain ⟨front, back, whole, size, made⟩ := unterminatedSelfClosingRule_rewrites fires
    exact ⟨front, back, whole, size, made.mono fun _ _ => .closes⟩

theorem rule_of_ne {repair : Repair} (orderly : repair.mendsTags = true) {c : Char}
    (other : c ≠ '<') (s : Text) :
    repair.rule (c :: s) = none := by
  cases found : repair.rule (c :: s) with
  | none => rfl
  | some change =>
    obtain ⟨front, back, whole, _⟩ := rule_rewrites orderly found
    exact False.elim (other (List.cons.inj whole).1)

/-- What a repair does to a text is edits. -/
theorem apply_rewrites {repair : Repair} (orderly : repair.mendsTags = true) (s : Text) :
    Rewrites Mends s (repair.apply s) := by
  rw [apply_eq orderly]
  refine Text.patchAll_rewrites (fun s n new found => ?_) s
  obtain ⟨front, back, whole, size, made⟩ := rule_rewrites orderly found
  exact ⟨'<' :: front, back, whole, size, by simp, made⟩

/-- Before the first angle bracket nothing is mended. -/
theorem patchAll_append_unmarked {repair : Repair} (orderly : repair.mendsTags = true) {v s : Text}
    (tags : '<' ∉ v) : Text.patchAll repair.rule (v ++ s) = v ++ Text.patchAll repair.rule s := by
  refine Text.patchAll_append fun a b whole more => ?_
  obtain ⟨c, b, rfl⟩ := List.exists_cons_of_ne_nil more
  refine rule_of_ne orderly ?_ (b ++ s)
  rintro rfl
  exact tags (by rw [whole]; simp)

theorem patchAll_unmarked {repair : Repair} (orderly : repair.mendsTags = true) {v : Text}
    (tags : '<' ∉ v) :
    Text.patchAll repair.rule v = v := by
  have kept := patchAll_append_unmarked orderly tags (s := [])
  rwa [List.append_nil, Text.patchAll, List.append_nil] at kept

theorem isNameChar_of_named {names : List Text} (plain : ∀ name ∈ names, Text.IsPlain name)
    {front : Text}
    (named : Named names front) : ∀ c ∈ front, Text.isNameChar c = true := by
  obtain ⟨name, listed, matched⟩ := named
  exact Text.isNameChar_of_matched (plain name listed) matched

theorem startsName_of_named {names : List Text} (orderly : ∀ name ∈ names, fits name = true)
    {front : Text}
    (named : Named names front) : ∃ c tail, front = c :: tail ∧ TagToken.startsName c = true := by
  obtain ⟨name, listed, matched⟩ := named
  have orderly := orderly name listed
  simp only [fits, Bool.and_eq_true, Option.any_eq_true] at orderly
  obtain ⟨⟨⟨n, head, lower⟩, _⟩, _⟩ := orderly
  obtain ⟨tail, rfl⟩ := List.head?_eq_some_iff.mp head
  obtain ⟨c, front, same, _, rfl⟩ := List.forall₂_cons_left_iff.mp matched
  exact ⟨c, front, rfl, Text.startsName_of_sameFolded lower same⟩

/-- No name is found where another one stands of which none is the beginning. -/
theorem not_named {names : List Text} {key front rest back : Text} {d : Char}
    (plain : ∀ name ∈ names, Text.IsPlain name) (apart : ∀ name ∈ names, ¬ name <+: Text.lower key)
    (letters : Text.IsPlain (Text.lower key)) (stop : Text.isNameChar d = false)
    (whole : key ++ d :: rest = front ++ back) : ¬ Named names front := by
  rintro ⟨name, listed, matched⟩
  rcases Text.append_eq_append_cons whole.symm with ⟨m, rfl, _⟩ | ⟨m, rfl, _⟩
  · have named := Text.isNameChar_of_matched (plain name listed) matched d (by simp)
    rw [stop] at named
    cases named
  · have lower : Text.lower front = name := by
      refine Text.lower_of_matched (plain name listed) (fun c inside => letters c ?_) matched
      simp only [Text.lower, List.map_append, List.mem_append] at inside ⊢
      exact .inl inside
    refine apart name listed ⟨Text.lower m, ?_⟩
    rw [← lower]
    simp [Text.lower]

end Repair

end MarkupActions
