import MarkupActions.Proofs.Patching
import MarkupActions.Proofs.Renamed
import MarkupActions.Proofs.Standing

/-!
# Renaming as edits

To rename is to put the canonical tag for the name of one token after the other. Neither a backtick
nor a newline stands in a token, and the names of a table never come near the name of a literal
block.
-/

namespace MarkupActions

/-- A token with a known name becomes one with the canonical tag. -/
inductive Respells (table : SpellingTable) : Text → Text → Prop
  | token (token : TagToken) (tag : Text) (named : TagToken.IsName token.name)
      (known : table.canonical? token.name = some tag) :
      Respells table token.text (TagToken.mk token.closing tag).text

/-- A renamed form is made by respelling tokens. -/
theorem Renamed.rewrites {table : SpellingTable} {s t : Text} (renamed : Renamed table s t) :
    Rewrites (Respells table) s t := by
  induction renamed with
  | nil => exact .refl []
  | keep c _ ih => exact ih.cons c
  | token token tag read known _ ih =>
    exact (Rewrites.single (.token token tag (TagToken.inv_read?_text read).1 known)).append ih

namespace SpellingTable

variable {table : SpellingTable}

/-- Renaming a text is respelling tokens in it. -/
theorem rename_rewrites (s : Text) : Rewrites (Respells table) s (table.rename s) :=
  (renamed_rename s).rewrites

/-- The names of the table are names of tags, and none goes on from the name of a literal block. -/
def Orderly (table : SpellingTable) : Prop :=
  ∀ entry ∈ table.entries, Repair.fits entry.1 = true ∧ Repair.fits entry.2 = true ∧
    Inert.literalName.isPrefixOf entry.2 = false

theorem orderly_builtIn : Orderly Registry.builtIn.table := by
  unfold Orderly
  decide +kernel

end SpellingTable

namespace Respells

open SpellingTable

variable {table : SpellingTable} {old new : Text}

theorem plain_of_known (orderly : Orderly table) {name tag : Text}
    (known : table.canonical? name = some tag) :
    Text.IsPlain (Text.lower name) ∧ Text.IsPlain tag := by
  obtain ⟨spelling, canonical, _⟩ := orderly _ (mem_of_canonical? known)
  exact ⟨Repair.isPlain_of_fits spelling, Repair.isPlain_of_fits canonical⟩

/-- Nothing but letters and the marks in front of a name is taken out or put in. -/
theorem unmarked (orderly : Orderly table) {c : Char}
    (letter : Text.isPlainLetter c.toLower = false) (open' : c ≠ '<')
    (slash : c ≠ '/') (made : Respells table old new) : c ∉ old ∧ c ∉ new := by
  obtain ⟨token, tag, _, known⟩ := made
  obtain ⟨spelling, canonical⟩ := plain_of_known orderly known
  rw [← Text.lower_of_isPlain canonical] at canonical
  have name := Text.not_mem_of_isPlain spelling letter
  have target := Text.not_mem_of_isPlain canonical letter
  constructor
  · unfold TagToken.text
    split <;> simp [name, open', slash]
  · unfold TagToken.text
    split <;> simp [target, open', slash]

theorem neverNew (orderly : Orderly table) {c : Char}
    (letter : Text.isPlainLetter c.toLower = false) (open' : c ≠ '<')
    (slash : c ≠ '/') : NeverNew (Respells table) c :=
  fun _ _ made => (made.unmarked orderly letter open' slash).2

theorem neverOld (orderly : Orderly table) {c : Char}
    (letter : Text.isPlainLetter c.toLower = false) (open' : c ≠ '<')
    (slash : c ≠ '/') : NeverOld (Respells table) c :=
  fun _ _ made => (made.unmarked orderly letter open' slash).1

/-- A canonical token is an angle bracket, perhaps a slash, and letters. -/
theorem new_eq (orderly : Orderly table) (made : Respells table old new) :
    ∃ slash tag, new = '<' :: (slash ++ tag) ∧ (slash = [] ∨ slash = ['/']) ∧ Text.IsPlain tag ∧
      (∃ name, (name, tag) ∈ table.entries) := by
  obtain ⟨token, tag, _, known⟩ := made
  have canonical := (plain_of_known orderly known).2
  have entry := mem_of_canonical? known
  cases closing : token.closing with
  | true => exact ⟨['/'], tag, by simp [TagToken.text], .inr rfl, canonical, _, entry⟩
  | false => exact ⟨[], tag, by simp [TagToken.text], .inl rfl, canonical, _, entry⟩

theorem old_eq (made : Respells table old new) : ∃ rest, old = '<' :: rest := by
  obtain ⟨token, tag, _, _⟩ := made
  unfold TagToken.text
  split
  · exact ⟨_, rfl⟩
  · exact ⟨_, rfl⟩

/-- What follows an angle bracket in a text in which one token was respelled stood there before, or
belongs to the token. -/
theorem step_cases (orderly : Orderly table) {s a front rest : Text} (one : '<' ∉ front)
    (step : EditStep (Respells table) s (a ++ '<' :: (front ++ rest))) :
    (∃ a' rest', s = a' ++ '<' :: (front ++ rest') ∧ Rewrites (Respells table) rest' rest) ∨
      ∃ (token : TagToken) (tag back : Text), table.canonical? token.name = some tag ∧
        s = a ++ (token.text ++ back) ∧
        '<' :: (front ++ rest) = (TagToken.mk token.closing tag).text ++ back := by
  generalize whole : a ++ '<' :: (front ++ rest) = t at step
  obtain ⟨x, y, made⟩ := step
  rename_i old new
  have single : Rewrites (Respells table) old new := .single made
  rcases Text.append_eq_append_cons whole.symm with ⟨m, rfl, inner⟩ | ⟨m, rfl, inner⟩
  · left
    obtain ⟨later, rfl⟩ : ∃ later, new = '<' :: later := by
      obtain ⟨slash, tag, rfl, _⟩ := made.new_eq orderly
      exact ⟨_, rfl⟩
    rcases List.append_eq_append_iff.mp inner with ⟨k, rfl, rfl⟩ | ⟨k, rfl, tail⟩
    · exact ⟨a, k ++ (old ++ y), by simp, (single.append_right y).append_left k⟩
    · cases k with
      | nil =>
        have same : '<' :: later ++ y = rest := tail
        exact ⟨a, old ++ y, by simp, same ▸ single.append_right y⟩
      | cons c k =>
        obtain ⟨rfl, _⟩ := List.cons.inj tail
        exact False.elim (one (by simp))
  · rcases Text.append_eq_append_cons inner with ⟨k, split, tail⟩ | ⟨k, rfl, rfl⟩
    · right
      obtain ⟨slash, canonical, shape, slashes, plain, _⟩ := made.new_eq orderly
      obtain ⟨token, tag, _, known⟩ := made
      have alone : '<' ∉ slash ++ canonical := by
        have letters : '<' ∉ canonical := fun inside => by
          have letter := plain _ inside
          revert letter
          decide
        rcases slashes with rfl | rfl <;> simp [letters]
      cases m with
      | nil => exact ⟨token, tag, y, known, by simp, by rw [tail, split]; simp⟩
      | cons c m =>
        rw [shape] at split
        exact False.elim (alone (by rw [(List.cons.inj split).2]; simp))
    · exact .inl ⟨x ++ (old ++ k), rest, by simp, .refl rest⟩

/-- A closing tag in a text in which one token was respelled stood there before, or is the token. -/
theorem closing_cases (orderly : Orderly table) {s a front rest name : Text}
    (lower : Text.lower front = '/' :: name)
    (plain : Text.IsPlain name) (step : EditStep (Respells table) s (a ++ '<' :: (front ++ rest))) :
    (∃ a' rest', s = a' ++ '<' :: (front ++ rest') ∧ Rewrites (Respells table) rest' rest) ∨
      ∃ (token : TagToken) (tag back : Text), table.canonical? token.name = some tag ∧
        token.closing = true ∧ s = a ++ (token.text ++ back) ∧
        (name <+: tag ∨ tag <+: name) := by
  obtain ⟨c, tail, rfl, head, inner⟩ := List.map_eq_cons_iff.mp lower
  obtain rfl := Text.eq_of_toLower_eq (by decide) head
  have letters : Text.IsPlain (Text.lower tail) := by rwa [← inner] at plain
  have one : '<' ∉ '/' :: tail := by
    simp [Text.not_mem_of_isPlain letters (by decide : Text.isPlainLetter '<'.toLower = false)]
  rcases step_cases orderly one step with stood | ⟨token, tag, back, known, rfl, whole⟩
  · exact .inl stood
  · right
    have canonical := (plain_of_known orderly known).2
    cases closing : token.closing with
    | false =>
      cases tag with
      | nil =>
        obtain ⟨_, fits, _⟩ := orderly _ (mem_of_canonical? known)
        cases fits
      | cons d tag =>
        rw [closing] at whole
        simp only [TagToken.text, Bool.false_eq_true, if_false, List.cons_append, List.nil_append,
          List.cons.injEq, true_and] at whole
        have letter := canonical d List.mem_cons_self
        have slash : Text.isPlainLetter '/' = false := by decide
        rw [← whole.1, slash] at letter
        cases letter
    | true =>
      rw [closing] at whole
      simp only [TagToken.text, if_true, List.cons_append, List.nil_append, List.cons.injEq,
        true_and] at whole
      refine ⟨token, tag, back, known, closing, rfl, ?_⟩
      have front : tail <+: tag ++ back := ⟨rest, whole⟩
      rcases List.prefix_or_prefix_of_prefix front
        (List.prefix_append tag back) with before | before
      · left
        rw [← inner, ← Text.lower_of_isPlain canonical]
        exact before.map _
      · right
        rw [← inner, ← Text.lower_of_isPlain canonical]
        exact before.map _

/-- Renaming brings in no closing tag of a name that is unlike all canonical tags. -/
theorem stands (orderly : Orderly table) {name : Text} (plain : Text.IsPlain name)
    (unlike : ∀ entry ∈ table.entries, ¬ name <+: entry.2 ∧ ¬ entry.2 <+: name) :
    Stands (Respells table) ('/' :: name) := by
  intro s a front rest lower run
  generalize whole : a ++ '<' :: (front ++ rest) = t at run
  induction run generalizing a rest with
  | refl => exact ⟨a, rest, whole.symm, .refl rest⟩
  | tail _ last ih =>
    subst whole
    rcases closing_cases orderly lower plain last with
      ⟨a', rest', rfl, later⟩ | ⟨token, tag, _, known, _, _, like⟩
    · obtain ⟨a'', rest'', rfl, earlier⟩ := ih a' rest' rfl
      exact ⟨a'', rest'', rfl, earlier.trans later⟩
    · obtain ⟨before, after⟩ := unlike _ (mem_of_canonical? known)
      exact False.elim (like.elim before after)

/-- Renaming brings in no tag of a name that it makes of no other name. -/
theorem not_contains (orderly : Orderly table) {slash name : Text}
    (slashes : slash = [] ∨ slash = ['/']) (plain : Text.IsPlain name) (more : name ≠ [])
    (alone : ∀ entry ∈ table.entries, name <+: entry.2 ∨ entry.2 <+: name → entry.1 = name)
    {s t : Text}
    (run : Rewrites (Respells table) s t)
    (absent : Text.contains ('<' :: (slash ++ name)) (Text.lower s) = false) :
    Text.contains ('<' :: (slash ++ name)) (Text.lower t) = false := by
  refine run.preserves (P := fun s => Text.contains ('<' :: (slash ++ name)) (Text.lower s) = false)
    (fun s t step absent => ?_) absent
  cases found : Text.contains ('<' :: (slash ++ name)) (Text.lower t) with
  | false => rfl
  | true =>
    obtain ⟨a, front, rest, rfl, lower⟩ := Text.contains_lower_iff.mp found
    obtain ⟨lead, key, rfl, lead', key'⟩ := List.map_eq_append_iff.mp lower
    obtain rfl : lead = slash := by
      rcases slashes with rfl | rfl
      · simpa using lead'
      · obtain ⟨c, _, rfl, same, empty⟩ := List.map_eq_cons_iff.mp lead'
        rw [Text.eq_of_toLower_eq (by decide) same, List.map_eq_nil_iff.mp empty]
    have lowered : Text.lower key = name := key'
    have one : '<' ∉ lead ++ key := by
      have letters : '<' ∉ key := Text.not_mem_of_isPlain (by rwa [lowered]) (by decide)
      rcases slashes with rfl | rfl <;> simp [letters]
    have none : ∀ a' key' rest', s = a' ++ '<' :: ((lead ++ key') ++ rest') →
      Text.lower key' ≠ name := by
      intro a' key' rest' whole lower'
      have here : Text.contains ('<' :: (lead ++ name)) (Text.lower s) = true := by
        refine Text.contains_lower_iff.mpr ⟨a', lead ++ key', rest', whole, ?_⟩
        rw [← lower']
        rcases slashes with rfl | rfl <;> simp [Text.lower]
      rw [here] at absent
      cases absent
    rcases step_cases orderly one step with
      ⟨a', rest', whole, _⟩ | ⟨token, tag, back, known, whole, shape⟩
    · exact False.elim (none a' key rest' whole lowered)
    · obtain ⟨slash, slashes', written⟩ := TagToken.exists_slash token.closing
      have canonical := (plain_of_known orderly known).2
      have entry := SpellingTable.mem_of_canonical? known
      have tagMore : tag ≠ [] := by
        obtain ⟨_, fits, _⟩ := orderly _ entry
        rintro rfl
        cases fits
      have keyMore : key ≠ [] := by
        rintro rfl
        exact more lowered.symm
      have inner : lead ++ (key ++ rest) = slash ++ (tag ++ back) := by
        rw [written tag] at shape
        simpa using shape
      have unslashed : '/' ∉ key ∧ '/' ∉ tag :=
        ⟨Text.not_mem_of_isPlain (by rwa [lowered]) (by decide),
          Text.not_mem_of_isPlain (by rwa [Text.lower_of_isPlain canonical]) (by decide)⟩
      obtain ⟨rfl, same⟩ :=
        Text.slash_cancel slashes slashes' ⟨keyMore, unslashed.1⟩ ⟨tagMore, unslashed.2⟩ inner
      have like : name <+: tag ∨ tag <+: name := by
        rw [← lowered, ← Text.lower_of_isPlain canonical]
        exact (List.prefix_or_prefix_of_prefix ⟨rest, same⟩ (List.prefix_append tag back)).imp
          (·.map _) (·.map _)
      refine False.elim (none a token.name back ?_ (alone _ entry like))
      rw [whole, written token.name]
      simp

end Respells

end MarkupActions
