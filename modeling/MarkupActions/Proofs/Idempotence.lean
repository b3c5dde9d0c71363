import Mathlib.Data.List.Infix
import MarkupActions.Proofs.Openers
import MarkupActions.Proofs.Renamed
import MarkupActions.Proofs.Tables

/-!
# Renaming twice

Renaming decides from closing tags, code and hunks what the body of a block is and leaves bodies
alone. In the renamed text all of that is found again, so renaming once more changes nothing. The
one exception is a marker that opens a hunk and names a tag at once: it is a marker no longer when
its name has been made canonical.
-/

namespace MarkupActions

/-- Whether no marker that opens a hunk names a tag of the table: whether none ends in a token that
is renamed. -/
def SpellingTable.SparesMarkers (table : SpellingTable) (s : Text) : Prop :=
  ∀ t ∈ s.tails, (Hunk.opening? t).isSome = true →
    ∀ token ∈ TagToken.read? (t.drop 6), table.canonical? token.name = none

instance (table : SpellingTable) (s : Text) : Decidable (table.SparesMarkers s) :=
  inferInstanceAs (Decidable (∀ t ∈ s.tails, _ → ∀ token ∈ TagToken.read? (t.drop 6), _))

namespace SpellingTable.SparesMarkers

variable {table : SpellingTable} {s t a b : Text}

theorem suffix (spares : table.SparesMarkers s) (inside : t <:+ s) : table.SparesMarkers t := by
  intro u ends
  exact spares u ((List.mem_tails _ _).mpr (((List.mem_tails _ _).mp ends).trans inside))

/-- What stands in front of an angle bracket reads alike without what follows. -/
theorem front (spares : table.SparesMarkers (a ++ '<' :: b)) : table.SparesMarkers a := by
  intro t ends marker token read
  have inside : t ++ '<' :: b ∈ (a ++ '<' :: b).tails := by
    obtain ⟨u, rfl⟩ := (List.mem_tails _ _).mp ends
    exact (List.mem_tails _ _).mpr ⟨u, by simp⟩
  have long : 6 ≤ t.length := by
    obtain ⟨n, length⟩ := Option.isSome_iff_exists.mp marker
    obtain ⟨blanks, rest, rfl, _⟩ := (Hunk.markerLength?_eq_some (by decide) (by decide)).mp length
    simp only [List.length_append, List.length_replicate]
    omega
  refine spares _ inside (Hunk.opening?_append (show Text.isWord '<' = false by decide) marker)
    token ?_
  rw [List.drop_append_of_le_length long]
  obtain ⟨rest, whole, named, stop⟩ := TagToken.read?_eq_some.mp read
  refine TagToken.read?_eq_some.mpr ⟨rest ++ '<' :: b, by rw [whole, List.append_assoc], named, ?_⟩
  cases rest with
  | nil =>
    show Text.isNameChar '<' = false
    decide
  | cons c rest => exact stop

end SpellingTable.SparesMarkers

namespace Renamed

variable {table : SpellingTable} {s t a b : Text}

theorem finish?_isSome (renamed : Renamed table s t) :
    (Hunk.finish? t).isSome = true ↔ (Hunk.finish? s).isSome = true := by
  have dark : "REPLACE".toList.head?.any Text.isSpaceOrTab = false := by decide
  have more : "REPLACE".toList ≠ [] := by decide
  have tags : ∀ blanks : Text, (∀ c ∈ blanks, Text.isSpaceOrTab c = true) →
      '<' ∉ List.replicate 7 '>' ++ (blanks ++ "REPLACE".toList) := by
    intro blanks blank inside
    simp only [List.mem_append] at inside
    rcases inside with marks | inside | word
    · revert marks
      decide
    · have space := blank _ inside
      revert space
      decide
    · revert word
      decide
  have shape : ∀ blanks rest : Text, List.replicate 7 '>' ++
    (blanks ++ ("REPLACE".toList ++ rest)) =
      (List.replicate 7 '>' ++ (blanks ++ "REPLACE".toList)) ++ rest := by
    intro blanks rest
    simp only [List.append_assoc]
  simp only [Option.isSome_iff_exists, Hunk.finish?, Hunk.markerLength?_eq_some dark more]
  constructor
  · rintro ⟨n, blanks, rest, rfl, blank, stops, size⟩
    rw [shape] at renamed
    obtain ⟨rest', rfl, inner⟩ := renamed.split_unmarked_new (tags blanks blank)
    exact ⟨n, blanks, rest', (shape _ _).symm, blank, by rwa [← inner.head], size⟩
  · rintro ⟨n, blanks, rest, rfl, blank, stops, size⟩
    rw [shape] at renamed
    obtain ⟨rest', rfl, inner⟩ := renamed.split_unmarked (tags blanks blank)
    exact ⟨n, blanks, rest', (shape _ _).symm, blank, by rwa [inner.head], size⟩

/-- No finishing marker is lost or won. -/
theorem count_finish (settled : table.Settled) (renamed : Renamed table s t) :
    Hunk.count Hunk.finish? t = Hunk.count Hunk.finish? s := by
  induction renamed with
  | nil => rfl
  | @keep c s t rest ih =>
    have here := (rest.keep c).finish?_isSome
    rw [Hunk.count, Hunk.count, ih]
    by_cases marker : (Hunk.finish? (c :: s)).isSome = true
    · rw [if_pos marker, if_pos (here.mpr marker)]
    · rw [if_neg marker, if_neg fun marker' => marker (here.mp marker')]
  | @token token tag s t read known rest ih =>
    have named := (TagToken.inv_read?_text read).1
    rw [Hunk.count_finish_append (TagToken.not_mem_text named (by decide) (by decide) (by decide)),
      Hunk.count_finish_append (@TagToken.not_mem_text ⟨token.closing, tag⟩
        (settled.named _ _ known) _
        (by decide) (by decide) (by decide)), ih]

/-- No token begins where a bracket follows. -/
theorem keep_brackets {k : Nat} {x : Text}
    (renamed : Renamed table (List.replicate k '<' ++ '<' :: x) t) :
    ∃ t', t = List.replicate k '<' ++ t' ∧ Renamed table ('<' :: x) t' := by
  induction k generalizing t with
  | zero => exact ⟨t, rfl, renamed⟩
  | succ k ih =>
    have unread : TagToken.read? ('<' :: (List.replicate k '<' ++ '<' :: x)) = none := by
      have starts : TagToken.startsName '<' = false := by decide
      cases k <;> simp [TagToken.read?, TagToken.name?, List.replicate, starts]
    rw [List.replicate_succ, List.cons_append] at renamed
    obtain ⟨t', rfl, rest⟩ := renamed.keep_of_unread fun token read => by
      rw [unread] at read
      cases read
    obtain ⟨t'', rfl, rest'⟩ := ih rest
    exact ⟨t'', rfl, rest'⟩

theorem opening?_isSome (spares : table.SparesMarkers s) (renamed : Renamed table s t)
    (marker : (Hunk.opening? s).isSome = true) : (Hunk.opening? t).isSome = true := by
  have dark : "SEARCH".toList.head?.any Text.isSpaceOrTab = false := by decide
  have more : "SEARCH".toList ≠ [] := by decide
  have unnamed := spares s ((List.mem_tails _ _).mpr (List.suffix_refl s)) marker
  rw [Option.isSome_iff_exists] at marker ⊢
  simp only [Hunk.opening?, Hunk.markerLength?_eq_some dark more] at marker ⊢
  obtain ⟨n, blanks, rest, rfl, blank, stops, size⟩ := marker
  have tags : '<' ∉ blanks ++ "SEARCH".toList := by
    intro inside
    rcases List.mem_append.mp inside with inside | word
    · have space := blank _ inside
      revert space
      decide
    · revert word
      decide
  have shape : ∀ rest : Text, List.replicate 7 '<' ++ (blanks ++ ("SEARCH".toList ++ rest)) =
      List.replicate 6 '<' ++ '<' :: ((blanks ++ "SEARCH".toList) ++ rest) := by
    intro rest
    simp [List.replicate]
  rw [shape] at renamed unnamed
  obtain ⟨t', rfl, last⟩ := renamed.keep_brackets
  obtain ⟨t'', rfl, word⟩ := last.keep_of_unread unnamed
  obtain ⟨rest', rfl, inner⟩ := word.split_unmarked tags
  exact ⟨n, blanks, rest', (shape _).symm, blank, by rwa [inner.head], size⟩

theorem count_opening_token {token : TagToken} (named : TagToken.IsName token.name) (s : Text) :
    Hunk.count Hunk.opening? (token.text ++ s) = Hunk.count Hunk.opening? s := by
  have tags := TagToken.not_mem_tail named
  obtain ⟨slash, shape, _⟩ := token.text_eq
  rw [shape, List.tail_cons] at tags
  obtain ⟨c, w, word⟩ : ∃ c w, slash ++ token.name = c :: w := by
    refine List.exists_cons_of_ne_nil fun empty => ?_
    have starts := named.1
    rw [(List.append_eq_nil_iff.mp empty).2] at starts
    cases starts
  have other : '<' ≠ c := by
    rw [word, List.mem_cons, not_or] at tags
    exact tags.1
  have here : Hunk.opening? ('<' :: (slash ++ token.name ++ s)) = none := by
    rw [word]
    simp [Hunk.opening?, Hunk.markerLength?, List.isPrefixOf?, List.replicate, other]
  rw [shape, List.cons_append, Hunk.count, here, Hunk.count_opening_append tags]
  simp

/-- No marker that opens a hunk is lost, if none names a tag. -/
theorem count_opening_le (settled : table.Settled) (spares : table.SparesMarkers s)
    (renamed : Renamed table s t) :
    Hunk.count Hunk.opening? s ≤ Hunk.count Hunk.opening? t := by
  induction renamed with
  | nil => exact Nat.le_refl _
  | @keep c s t rest ih =>
    rw [Hunk.count, Hunk.count]
    refine Nat.add_le_add ?_ (ih (spares.suffix (List.suffix_cons c s)))
    by_cases marker : (Hunk.opening? (c :: s)).isSome = true
    · simp [marker, (rest.keep c).opening?_isSome spares marker]
    · simp [marker]
  | @token token tag s t read known rest ih =>
    rw [count_opening_token (TagToken.inv_read?_text read).1,
      @count_opening_token ⟨token.closing, tag⟩ (settled.named _ _ known)]
    exact ih (spares.suffix (List.suffix_append _ _))

/-- A place that is covered is covered in the renamed form as well. -/
theorem shadow_content (settled : table.Settled) (front : Renamed table a s)
    (back : Renamed table b t)
    (opened : Hunk.count Hunk.opening? a ≤ Hunk.count Hunk.opening? s)
    (covered : (shadow .content (a ++ b) a.length).isSome = true) :
    (shadow .content (s ++ t) s.length).isSome = true := by
  have code := front.shadow_code settled back false
  have finished := front.count_finish settled
  rw [← Bool.not_eq_false, Option.isSome_eq_false_iff, Option.isNone_iff_eq_none] at covered ⊢
  rw [shadow_content_eq_none, Hunk.shadow_eq_none] at covered ⊢
  rintro ⟨bare, closed⟩
  rw [bare, Option.isSome_none, Option.isSome_eq_false_iff, Option.isNone_iff_eq_none] at code
  exact covered ⟨code, by omega⟩

/-- A block that is never closed is not closed in the renamed form either. -/
theorem closing?_eq_none (settled : table.Settled) (spares : table.SparesMarkers s)
    (renamed : Renamed table s t)
    {tag : Text} (open' : closing? .content (table.closes? tag) s = none) :
    closing? .content (table.closes? tag) t = none := by
  refine closing?_of_covered fun front tail n whole closes => ?_
  obtain ⟨u, rfl⟩ := table.seesTags_closes? tag tail n closes
  subst whole
  obtain ⟨a, b, rfl, before, behind⟩ := renamed.split_bracket settled
  obtain ⟨m, closes'⟩ := behind.closes_of_new settled closes
  exact before.shadow_content settled behind (before.count_opening_le settled spares.front)
    (closing?_none (table.seesTags_closes? tag) open' rfl closes')

/-- The body of a block ends in the renamed form where it ended, if it was left alone. -/
theorem closing?_eq_some (settled : table.Settled) (renamed : Renamed table s t)
    {front name tag : Text}
    (closed : closing? .content (table.closes? tag) (front ++ ((TagToken.mk true name).text ++ s)) =
      some (front.length, name.length + 2)) :
    closing? .content (table.closes? tag) (front ++ ((TagToken.mk true tag).text ++ t)) =
      some (front.length, tag.length + 2) := by
  have sees := table.seesTags_closes? tag
  obtain ⟨closes, bare⟩ := closing?_at closed
  have made := renamed.closing closes
  obtain ⟨_, known, blanks, rest, rfl, blank⟩ := SpellingTable.closes?_text closes
  have split : Renamed table ((blanks ++ ['>']) ++ rest) t := by simpa using renamed
  obtain ⟨rest', shape, _⟩ := split.split_unmarked (SpellingTable.unmarked_closing blank)
  have closes' : table.closes? tag ((TagToken.mk true tag).text ++ t) = some (tag.length + 2) :=
    SpellingTable.closes?_eq_some.mpr
      ⟨tag, blanks, rest',
        by rw [shape]; simp, settled.named _ _ known, blank, settled.fixed _ _ known, rfl⟩
  refine closing?_of_earlier sees rfl closes' ?_ fun a b m cut closes'' before => ?_
  · have code := (Renamed.refl front).shadow_code settled made false
    rw [shadow_content_eq_none] at bare ⊢
    rw [bare.1, Option.isSome_none] at code
    exact ⟨Option.isNone_iff_eq_none.mp (Option.isSome_eq_false_iff.mp code.symm),
      Hunk.shadow_eq_none.mpr (Hunk.shadow_eq_none.mp bare.2)⟩
  · rcases List.append_eq_append_iff.mp cut with ⟨k, rfl, _⟩ | ⟨k, rfl, rfl⟩
    · rw [List.length_append] at before
      omega
    · have behind := made.append_left k
      obtain ⟨m', old⟩ := behind.closes_of_new settled closes''
      have covered := closing?_earlier sees closed (List.append_assoc a k _) old before
      have covered' := (Renamed.refl a).shadow_content settled behind (Nat.le_refl _)
        (by rwa [List.append_assoc] at covered)
      rwa [List.append_assoc]

/-- A token without a block is without one in the renamed form. -/
theorem alone (settled : table.Settled) (spares : table.SparesMarkers s)
    (renamed : Renamed table s t) {token : TagToken}
    {tag : Text} (alone : table.Alone token tag s) : table.Alone ⟨token.closing, tag⟩ tag t := by
  unfold SpellingTable.Alone
  rw [renamed.endsInSlash settled false (by simp)]
  exact alone.imp_right (renamed.closing?_eq_none settled spares)

/-- A place that is kept begins the same token in the renamed form. -/
theorem read?_keep (renamed : Renamed table s t) (c : Char) :
    TagToken.read? (c :: t) = TagToken.read? (c :: s) := by
  refine Option.ext fun token => ?_
  obtain ⟨slash, shape, _⟩ := token.text_eq
  have unmarked : TagToken.IsName token.name → '<' ∉ slash ++ token.name := by
    intro named
    have tags := TagToken.not_mem_tail named
    rwa [shape, List.tail_cons] at tags
  rw [TagToken.read?_eq_some, TagToken.read?_eq_some, shape]
  constructor
  · rintro ⟨rest, whole, named, stop⟩
    obtain ⟨rfl, rfl⟩ := List.cons.inj whole
    obtain ⟨rest', rfl, later⟩ := renamed.split_unmarked_new (unmarked named)
    exact ⟨rest', rfl, named, by rwa [← later.head]⟩
  · rintro ⟨rest, whole, named, stop⟩
    obtain ⟨rfl, rfl⟩ := List.cons.inj whole
    obtain ⟨rest', rfl, later⟩ := renamed.split_unmarked (unmarked named)
    exact ⟨rest', rfl, named, by rwa [later.head]⟩

end Renamed

namespace SpellingTable

variable {table : SpellingTable} {s : Text}

/-- A pair is a pair in the renamed form, under the name of its tag. -/
theorem TagPair.renamed (settled : table.Settled) {tag opening front name back back' : Text}
    (pair : table.TagPair tag opening front name back) (behind : Renamed table back back') :
    table.TagPair tag tag front tag back' := by
  have both := (behind.closing pair.closes).append_left front
  have stop := (TagToken.inv_read?_text pair.read).2
  rw [← both.head] at stop
  exact {
    read := @TagToken.read?_text ⟨false, tag⟩ (settled.named _ _ pair.known) _ stop
    known := settled.fixed _ _ pair.known
    content := pair.content
    unslashed := (both.endsInSlash settled false (by simp)).trans pair.unslashed
    closed := behind.closing?_eq_some settled pair.closed }

/-- Renaming a renamed text changes nothing, if no marker in it names a tag. -/
theorem rename_rename (settled : table.Settled) (spares : table.SparesMarkers s) :
    table.rename (table.rename s) = table.rename s := by
  induction s using rename_induct table with
  | nil =>
    rw [rename]
    exact rename.eq_1 table
  | keep c s unknown ih =>
    have unknown' := unknown
    rw [← (@renamed_rename table s).read?_keep c] at unknown'
    rw [rename_keep unknown, rename_keep unknown', ih (spares.suffix (List.suffix_cons c s))]
  | alone token tag rest read known alone ih =>
    have later := @renamed_rename table rest
    have spares' := spares.suffix (List.suffix_append token.text rest)
    have stop := (TagToken.inv_read?_text read).2
    rw [← later.head] at stop
    have read' := @TagToken.read?_text ⟨token.closing, tag⟩ (settled.named _ _ known) _ stop
    rw [rename_alone read known alone, rename_alone read' (settled.fixed _ _ known)
      (later.alone settled spares' alone), ih spares']
  | block tag opening front name back pair ih =>
    have spares' : table.SparesMarkers back :=
      spares.suffix ⟨(TagToken.mk false opening).text ++ (front ++ (TagToken.mk true name).text),
        by simp⟩
    rw [rename_block pair, rename_block (pair.renamed settled (renamed_rename back)), ih spares']

/-- The built-in families give every spelling one tag, which is one of their own. -/
theorem entries_builtIn : ∀ family ∈ Family.builtIn, ∀ entry ∈ entriesOf family,
    (entry.2 ∈ family.canonicalTags ∧ Text.lower entry.2 = entry.2 ∧ Repair.fits entry.2 = true) ∧
      ∀ spelling ∈ Spelling.ofTag entry.1, Registry.builtIn.table.entries.lookup spelling =
        some entry.2 := by
  decide +kernel

theorem agree_builtIn : Agree Family.builtIn where
  same := by
    intro family member entry own spelling spelled other member' entry' own' spelled'
    have first := (entries_builtIn family member entry own).2 spelling spelled
    have second := (entries_builtIn other member' entry' own').2 spelling spelled'
    exact Option.some.inj (second.symm.trans first)
  own := by
    intro family member entry own
    obtain ⟨⟨canonical, lower, _⟩, _⟩ := entries_builtIn family member entry own
    exact ⟨canonical, lower⟩

/-- The tags of some of the built-in families are names that stand for themselves. -/
theorem settled_of_sublist {families : List Family} (less : families.Sublist Family.builtIn) :
    (ofFamilies families).Settled where
  named := by
    intro name tag known
    obtain ⟨family, member, entry, own, _, rfl⟩ := mem_ofFamilies (mem_of_canonical? known)
    obtain ⟨⟨_, lower, fits⟩, _⟩ := entries_builtIn family (less.subset member) entry own
    exact TagName.isName (show Repair.fits (Text.lower entry.2) = true by rw [lower, fits])
  fixed := fun _ _ known => (agree_builtIn.sublist less).fixed known

end SpellingTable

namespace Registry

/-- The families that are left when some are turned off stand in their old order. -/
theorem unregister_sublist (registry : Registry) (tags : List Text) :
    (registry.unregister tags).families.Sublist registry.families := List.filter_sublist

/-- With all built-in families or some of them, making names canonical twice is making them
canonical once, if no marker of a hunk names a tag. -/
theorem normalize_normalize {registry : Registry} (less : registry.families.Sublist Family.builtIn)
    {s : Text}
    (spares : registry.table.SparesMarkers s) :
    registry.normalize (registry.normalize s) = registry.normalize s := by
  refine SpellingTable.rename_rename ?_ spares
  rw [registry.table_eq]
  exact SpellingTable.settled_of_sublist less

/-- Without messages, an edit whose hunk is open at the first closing tag is normalized once and for
all. -/
theorem normalize_normalize_hunk :
    let registry := builtIn.unregister ["say".toList]
    let s := "<Edit_File>\n<<<<<<< SEARCH\n</edit> <Say>\n".toList ++
      ">>>>>>> REPLACE\n</edit_file> <Shell>".toList
    registry.table.SparesMarkers s ∧ registry.normalize (registry.normalize s) =
      registry.normalize s := by
  intro registry s
  have spares : registry.table.SparesMarkers s := by decide
  exact ⟨spares, normalize_normalize (unregister_sublist builtIn _) spares⟩

/-- A marker that names a tag opens a hunk only in front of the first pass, so that the second finds
a closing tag where the first found none. -/
theorem named_marker_matters : ¬ ∀ s :
    Text, builtIn.normalize (builtIn.normalize s) = builtIn.normalize s := by
  intro always
  have same := always "<say><<<<<<<SEARCH-FILES <write> </say> <Read> </write>".toList
  revert same
  decide +kernel

end Registry

end MarkupActions
