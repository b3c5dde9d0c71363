import MarkupActions.Proofs.Cuts
import MarkupActions.Proofs.Removal

/-!
# Tags across what is taken out

Nothing is put in the place of an inert region, so what stands on its two sides is joined. Where no
tag is left unfinished directly in front of a region, stripping puts none together: every opening
tag of the stripped text is one of the text. For a tag that is put together the pieces are found
again.
-/

namespace MarkupActions

namespace Layout

variable {Part : Type}

def fronts : Layout Part → List Text
  | last _ => []
  | next gap _ rest => gap :: rest.fronts

theorem exists_mem_fronts (x : Layout Part) (gap : Text) (part : Part) (rest : Layout Part) :
    ∃ a, a ++ gap ∈ (x.append (next gap part rest)).fronts := by
  induction x with
  | last g => exact ⟨g, by simp [append, prepend, fronts]⟩
  | next g p x ih =>
    obtain ⟨a, inside⟩ := ih
    exact ⟨a, List.mem_cons_of_mem g inside⟩

/-- The gaps are cut in front of a character that they hold; parts that stand at the cut go to the
front. -/
theorem exists_append_cons {l : Layout Part} {a b : Text} {c : Char}
    (whole : l.gaps = a ++ c :: b) :
    ∃ x y : Layout Part, l = x.append (y.prepend [c]) ∧ x.gaps = a ∧ y.gaps = b := by
  induction l generalizing a with
  | last gap =>
    obtain rfl : gap = a ++ c :: b := whole
    exact ⟨last a, last b, rfl, rfl, rfl⟩
  | next gap part rest ih =>
    rw [gaps_next] at whole
    rcases Text.append_eq_append_cons whole with ⟨m, rfl, rfl⟩ | ⟨m, rfl, later⟩
    · exact ⟨last a, next m part rest, rfl, rfl, gaps_next m part rest⟩
    · obtain ⟨x, y, rfl, front, back⟩ := ih later
      exact ⟨next gap part x, y, rfl, by rw [gaps_next, front], back⟩

/-- The gaps are cut behind a text with which they begin. No part stands inside of it, or the first
that does stands behind a proper front of it. -/
theorem exists_append {l : Layout Part} {a b : Text} (whole : l.gaps = a ++ b) :
    ∃ x y : Layout Part, l = x.append y ∧ x.gaps = a ∧ y.gaps = b ∧
      (x = last a ∨ ∃ gap part rest, x = next gap part rest ∧ rest.gaps ≠ []) := by
  induction l generalizing a with
  | last gap =>
    obtain rfl : gap = a ++ b := whole
    exact ⟨last a, last b, rfl, rfl, rfl, .inl rfl⟩
  | next gap part rest ih =>
    rw [gaps_next] at whole
    rcases List.append_eq_append_iff.mp whole with ⟨m, rfl, later⟩ | ⟨m, rfl, rfl⟩
    · cases m with
      | nil =>
        refine ⟨last gap, next [] part rest,
          by simp [append], by rw [List.append_nil]; rfl, ?_, .inl (by simp)⟩
        rw [gaps_next]
        exact later
      | cons c m =>
        obtain ⟨x, y, rfl, front, back, _⟩ := ih later
        exact ⟨next gap part x, y, rfl,
          by rw [gaps_next, front], back, .inr ⟨gap, part, x, rfl, by simp [front]⟩⟩
    · exact ⟨last a, next m part rest, rfl, rfl, gaps_next m part rest, .inl rfl⟩

end Layout

namespace OpeningTag

/-- A proper front of a tag is no tag yet. -/
theorem unsettled_of_front {tag : OpeningTag} {head back s : Text}
    (read : read? (tag.text ++ s) = some tag)
    (front : tag.text = '<' :: (head ++ back)) (more : back ≠ []) : settles none head = false := by
  rw [Bool.eq_false_iff]
  intro settled
  have early : read? ('<' :: head) = some tag := by
    rw [← read?_append settled (back ++ s), ← List.append_assoc, ← List.cons_append, ← front]
    exact read
  obtain ⟨rest, whole⟩ := read?_split early
  have long := congrArg List.length whole
  have size := congrArg List.length front
  have positive := List.length_pos_of_ne_nil more
  simp only [List.length_append, List.length_cons] at long size
  omega

/-- Whether every opening tag that begins in a text comes to an angle bracket in it, outside quotes.
Where the text ends with a bracket a tag may begin. -/
def finished : Text → Bool
  | [] => true
  | c :: s => (c != '<' || !s.head?.all Char.isAlpha || settles none s) && finished s

theorem settles_of_finished {a u : Text} (done : finished (a ++ '<' :: u) = true)
    (head : u.head?.all Char.isAlpha = true) : settles none u = true := by
  induction a with
  | nil =>
    simp only [List.nil_append, finished, Bool.and_eq_true] at done
    simpa [head] using done.1
  | cons c a ih =>
    rw [List.cons_append, finished, Bool.and_eq_true] at done
    exact ih done.2

/-- A front of a tag, cut anywhere behind its bracket, goes on with a letter if at all. -/
theorem head?_isAlpha {tag : OpeningTag} {head back s : Text}
    (read : read? (tag.text ++ s) = some tag)
    (front : tag.text = '<' :: (head ++ back)) : head.head?.all Char.isAlpha = true := by
  obtain ⟨_, _, ⟨c, name, shape, letter, _⟩, _⟩ := inv_read? read
  cases head with
  | nil => rfl
  | cons d head =>
    have inner : c :: (name ++ tag.attributes ++ ['>']) = d :: (head ++ back) := by
      simpa [text, shape] using front
    obtain ⟨rfl, _⟩ := List.cons.inj inner
    simpa using letter

end OpeningTag

namespace Inert

/-- What an inert region takes up that opens somewhere in a text. -/
def IsRegion (text region : Text) : Prop :=
  ∃ lineStart s n, s <:+ text ∧ regionLength? lineStart s = some n ∧ region = s.take n

theorem IsRegion.of_drop {c : Char} {s region : Text} {n : Nat}
    (inert : IsRegion (s.drop n) region) :
    IsRegion (c :: s) region := by
  obtain ⟨lineStart, t, k, inner, found, whole⟩ := inert
  exact ⟨lineStart, t, k, inner.trans ((List.drop_suffix n s).trans (List.suffix_cons c s)), found,
    whole⟩

variable {guarded : Matcher}

/-- All that stripping takes out are inert regions. -/
theorem isRegion_of_mem_layout {lineStart : Bool} {s region : Text}
    (inside : region ∈ (layout guarded lineStart s).parts) : IsRegion s region := by
  induction lineStart, s using layout.induct guarded with
  | case1 lineStart =>
    rw [layout] at inside
    cases inside
  | case2 lineStart c s n found ih =>
    rw [layout, found] at inside
    rcases List.mem_cons.mp inside with rfl | later
    · obtain ⟨k, rfl⟩ := Nat.exists_eq_add_one_of_ne_zero (Nat.ne_of_gt (regionLength?_pos found))
      exact ⟨lineStart, c :: s, k + 1, List.suffix_refl _, found, rfl⟩
    · exact .of_drop (ih later)
  | case3 lineStart c s region block found ih =>
    rw [layout, region, found] at inside
    exact .of_drop (ih (by simpa using inside))
  | case4 lineStart c s region none n ih =>
    rw [layout, region, none] at inside
    exact .of_drop (ih (by simpa using inside))

/-- A tag of the stripped text, between `front` and `back`, that stands in the text in pieces.
Behind its head, which has not come to an angle bracket outside quotes, an inert region is taken
out, and the rest of the tag follows, with whatever else is taken out of that. -/
structure Torn (guarded : Matcher) (text front back : Text) (tag : OpeningTag) (head region : Text)
    (rest : Layout Text) :
    Prop where
  pieces : tag.text = '<' :: (head ++ rest.gaps)
  unfinished : OpeningTag.settles none head = false
  stands : '<' :: (head ++ (region ++ rest.text id)) <:+: text
  taken : ∃ before after : Layout Text, before.gaps = front ∧ after.gaps = back ∧
    layout guarded true text = before.append ((Layout.next ('<' :: head) region rest).append after)
  inert : ∀ part ∈ region :: rest.parts, IsRegion text part

/-- Whether no opening tag is left unfinished directly in front of a region that stripping takes
out. -/
def Seamless (guarded : Matcher) (text : Text) : Prop :=
  ∀ gap ∈ (layout guarded true text).fronts, OpeningTag.finished gap = true

variable {text front back : Text} {tag : OpeningTag}

/-- Stripping joins a tag only over a region that is taken out from inside of it. -/
theorem whole_or_torn (stripped : strip guarded true text = front ++ (tag.text ++ back))
    (read : OpeningTag.read? (tag.text ++ back) = some tag) :
    tag.text <:+: text ∨ ∃ head region rest, Torn guarded text front back tag head region rest := by
  have gaps : (layout guarded true text).gaps =
      front ++ '<' :: (tag.name ++ tag.attributes ++ ['>'] ++ back) := by
    rw [gaps_layout, stripped]
    rfl
  obtain ⟨before, y, cut, ahead, behind⟩ := Layout.exists_append_cons gaps
  obtain ⟨middle, after, rfl, inner, beyond, shape⟩ := Layout.exists_append behind
  rw [← Layout.prepend_append] at cut
  have whole : text = before.text id ++ '<' :: (middle.text id ++ after.text id) := by
    calc text = (layout guarded true text).text id := (text_layout guarded true text).symm
      _ = before.text id ++ '<' :: (middle.text id ++ after.text id) := by
        rw [cut, Layout.text_append, Layout.text_append, Layout.text_prepend]
        rfl
  rcases shape with rfl | ⟨head, region, rest, rfl, more⟩
  · exact .inl ⟨before.text id, after.text id, by rw [whole]; simp [Layout.text, OpeningTag.text]⟩
  · rw [Layout.gaps_next] at inner
    have pieces : tag.text = '<' :: (head ++ rest.gaps) := congrArg ('<' :: ·) inner.symm
    refine .inr ⟨head, region, rest, pieces, OpeningTag.unsettled_of_front read pieces more, ?_,
      ⟨before, after, ahead, beyond, cut⟩, fun part inside => ?_⟩
    · exact ⟨before.text id, after.text id, by rw [whole]; simp [Layout.text]⟩
    · refine @isRegion_of_mem_layout guarded true text part ?_
      rw [cut, Layout.parts_append, Layout.parts_append]
      exact List.mem_append_right _ (List.mem_append_left _ inside)

/-- A tag that is torn was left unfinished in front of a region. -/
theorem Torn.not_seamless {head region : Text} {rest : Layout Text}
    (torn : Torn guarded text front back tag head region rest)
    (read : OpeningTag.read? (tag.text ++ back) = some tag) : ¬ Seamless guarded text := by
  intro seamless
  obtain ⟨before, after, _, _, cut⟩ := torn.taken
  obtain ⟨a, inside⟩ := Layout.exists_mem_fronts before ('<' :: head) region (rest.append after)
  have done := seamless (a ++ '<' :: head) (by rw [cut]; exact inside)
  have settled := OpeningTag.settles_of_finished done (OpeningTag.head?_isAlpha read torn.pieces)
  rw [torn.unfinished] at settled
  cases settled

/-- Where no tag is left unfinished in front of a region that is taken out, every opening tag of the
stripped text stands in the text and is read there; and in any text, one that does not stand there
is torn by a region that was taken out from inside of it. -/
theorem strip_tag (guarded : Matcher)
    (stripped : strip guarded true text = front ++ (tag.text ++ back))
    (read : OpeningTag.read? (tag.text ++ back) = some tag) :
    (Seamless guarded text →
        ∃ a b, text = a ++ (tag.text ++ b) ∧ OpeningTag.read? (tag.text ++ b) = some tag) ∧
      (tag.text <:+: text ∨ ∃ head region rest,
        Torn guarded text front back tag head region rest) := by
  have found := whole_or_torn stripped read
  refine ⟨fun seamless => ?_, found⟩
  rcases found with ⟨a, b, whole⟩ | ⟨head, region, rest, torn⟩
  · exact ⟨a, b, by simpa using whole.symm, OpeningTag.read?_cut read b⟩
  · exact absurd seamless (torn.not_seamless read)

/-- Behind a tag of its own a span may be taken out, and a comparison in front of one is no tag; but
a tag with a span in its name is torn. -/
theorem strip_tag_span :
    let shown := "<read path=\"a\"/>\x60<ls/>\x60 if a < b \x60then\x60 stop".toList
    (Seamless .empty shown ∧
      ∃ a b, shown = a ++ ((OpeningTag.mk "read".toList " path=\"a\"/".toList).text ++ b) ∧
        OpeningTag.read? ((OpeningTag.mk "read".toList " path=\"a\"/".toList).text ++ b) =
          some ⟨"read".toList, " path=\"a\"/".toList⟩) ∧
      ∃ head region rest, Torn .empty "<re\x60x\x60ad path=\"a\"/>".toList [] []
        ⟨"read".toList, " path=\"a\"/".toList⟩ head region rest := by
  intro shown
  have seamless : Seamless .empty shown := by
    unfold Seamless
    decide +kernel
  have stands := @strip_tag shown [] " if a < b  stop".toList ⟨"read".toList, " path=\"a\"/".toList⟩
    Matcher.empty (by decide +kernel) (by decide +kernel)
  have torn := @strip_tag "<re\x60x\x60ad path=\"a\"/>".toList [] []
    ⟨"read".toList, " path=\"a\"/".toList⟩ Matcher.empty (by decide +kernel) (by decide +kernel)
  exact ⟨⟨seamless, stands.1 seamless⟩, torn.2.resolve_left (by decide +kernel)⟩

/-- The tag that a span was taken out of stands nowhere in the text. -/
theorem strip_joins :
    ¬ ∀ (guarded : Matcher) (text front back : Text) (tag : OpeningTag),
      strip guarded true text = front ++ (tag.text ++ back) →
      OpeningTag.read? (tag.text ++ back) = some tag → tag.text <:+: text := by
  intro stands
  have inside := stands Matcher.empty "<re\x60x\x60ad path=\"a\"/>".toList [] []
    ⟨"read".toList, " path=\"a\"/".toList⟩ (by decide +kernel) (by decide +kernel)
  revert inside
  decide +kernel

end Inert

end MarkupActions
