import MarkupActions.Proofs.Patching

/-!
# Decoding in one pass

Entities are decoded one after the other, each in the whole text. None overlaps another, and what
one is decoded to stands in none that is decoded after it. So the passes come to a single one from
left to right that does not look at what it has written, and a text that was written with entities
is read back as it was, whatever it says of entities itself.
-/

namespace MarkupActions.Entity

variable {entries : List (Text × Char)} {entity s : Text} {c : Char}

/-- The change that decodes the entity at the head of a text, if it is one of a table. -/
def patch (entries : List (Text × Char)) : Text.Patch := fun rest =>
  entries.findSome? fun (entity, c) => if entity.isPrefixOf rest then some (entity.length, [c])
    else none

/-- Entities that can be decoded one after the other: their ampersands are where they begin, none
begins another, and what one stands for is in none that comes later. -/
structure Separate (entries : List (Text × Char)) : Prop where
  marked : ∀ entry ∈ entries, entry.1.head? = some '&' ∧ '&' ∉ entry.1.tail
  apart : entries.Pairwise fun first later =>
    ¬ first.1 <+: later.1 ∧ ¬ later.1 <+: first.1 ∧ first.2 ∉ later.1

theorem separate_table : Separate table where
  marked := by decide
  apart := by decide

namespace Separate

theorem tail {entry : Text × Char} (separate : Separate (entry :: entries)) : Separate entries where
  marked other inside := separate.marked other (List.mem_cons_of_mem _ inside)
  apart := (List.pairwise_cons.mp separate.apart).2

theorem exists_cons (separate : Separate entries) (listed : (entity, c) ∈ entries) :
    ∃ name, entity = '&' :: name ∧ '&' ∉ name := by
  obtain ⟨head, rest⟩ := separate.marked _ listed
  obtain ⟨name, rfl⟩ := List.head?_eq_some_iff.mp head
  exact ⟨name, rfl, rest⟩

end Separate

theorem patch_eq_none : patch entries s = none ↔ ∀ entry ∈ entries, ¬ entry.1 <+: s := by
  rw [patch, List.findSome?_eq_none_iff]
  refine forall₂_congr fun entry _ => ?_
  simp [← List.isPrefixOf_iff_prefix]

theorem patch_eq_some {new : Text} {n : Nat} (found : patch entries s = some (n, new)) :
    ∃ entity c rest, (entity, c) ∈ entries ∧ s = entity ++ rest ∧ n = entity.length ∧
      new = [c] := by
  obtain ⟨⟨entity, c⟩, listed, here⟩ := List.exists_of_findSome?_eq_some found
  simp only at here
  split at here
  · rename_i begins
    obtain ⟨rest, rfl⟩ := List.isPrefixOf_iff_prefix.mp begins
    obtain ⟨rfl, rfl⟩ := Prod.mk.inj (Option.some.inj here)
    exact ⟨entity, c, rest, listed, rfl, rfl, rfl⟩
  · cases here

/-- Each change takes an entity out and puts its character in. -/
theorem Separate.changes (separate : Separate entries) (s : Text) (n : Nat) (new : Text)
    (found : patch entries s = some (n, new)) :
    ∃ entity rest, s = entity ++ rest ∧ entity.length = n ∧ entity ≠ [] ∧
      ∃ c, (entity, c) ∈ entries ∧ new = [c] := by
  obtain ⟨entity, c, rest, listed, rfl, rfl, rfl⟩ := patch_eq_some found
  obtain ⟨name, shape, _⟩ := separate.exists_cons listed
  exact ⟨entity, rest, rfl, rfl, by simp [shape], c, listed, rfl⟩

theorem patch_of_ne (separate : Separate entries) {d : Char} (other : d ≠ '&') (s : Text) :
    patch entries (d :: s) = none := by
  refine patch_eq_none.mpr fun ⟨entity, c⟩ listed begins => ?_
  obtain ⟨name, rfl, _⟩ := separate.exists_cons listed
  exact other (List.cons_prefix_cons.mp begins).1.symm

/-- Of entities that do not begin each other the one that stands there is found. -/
theorem patch_of_mem (separate : Separate entries) (listed : (entity, c) ∈ entries) (s : Text) :
    patch entries (entity ++ s) = some (entity.length, [c]) := by
  induction entries with
  | nil => cases listed
  | cons entry entries ih =>
    rcases List.mem_cons.mp listed with rfl | later
    · simp [patch]
    · obtain ⟨ahead, behind, _⟩ := (List.pairwise_cons.mp separate.apart).1 _ later
      have other : ¬ entry.1.isPrefixOf (entity ++ s) = true := by
        rw [List.isPrefixOf_iff_prefix]
        intro begins
        exact (List.prefix_or_prefix_of_prefix begins (List.prefix_append entity s)).elim ahead
          behind
      have rest := ih separate.tail later
      rw [patch] at rest ⊢
      rw [List.findSome?_cons]
      simp only [other]
      exact rest

theorem replaceAll_eq (some : entity ≠ []) (s : Text) :
    Text.replaceAll entity [c] s = Text.patchAll (patch [(entity, c)]) s := by
  have same : patch [(entity, c)] = fun rest =>
      if entity.isPrefixOf rest then Option.some (entity.length, [c]) else none := by
    funext rest
    rw [patch, List.findSome?_singleton]
  rw [Text.replaceAll, if_neg (by simpa using some), same]

/-- What does not have the character that is put in stood there before. -/
theorem prefix_of_decoded {sought : Text} (absent : c ∉ sought)
    (begins : sought <+: Text.patchAll (patch [(entity, c)]) s) :
    sought <+: s := by
  induction sought generalizing s with
  | nil => exact List.nil_prefix
  | cons d sought ih =>
    simp only [List.mem_cons, not_or] at absent
    cases s with
    | nil =>
      rw [Text.patchAll] at begins
      exact begins
    | cons x s =>
      cases found : patch [(entity, c)] (x :: s) with
      | none =>
        rw [Text.patchAll_of_none found] at begins
        obtain ⟨rfl, behind⟩ := List.cons_prefix_cons.mp begins
        exact List.cons_prefix_cons.mpr ⟨rfl, ih absent.2 behind⟩
      | some change =>
        obtain ⟨n, new⟩ := change
        obtain ⟨_, _, _, listed, _, _, rfl⟩ := patch_eq_some found
        obtain ⟨_, rfl⟩ := Prod.mk.inj (List.mem_singleton.mp listed)
        rw [Text.patchAll, found] at begins
        exact False.elim (absent.1 (List.cons_prefix_cons.mp begins).1.symm)

/-- An entity stands as it is while another one is decoded. -/
theorem decoded_append (separate : Separate ((entity, c) :: entries)) {other : Text} {d : Char}
    (listed : (other, d) ∈ entries) (s : Text) :
    Text.patchAll (patch [(entity, c)]) (other ++ s) = other ++ Text.patchAll
      (patch [(entity, c)]) s := by
  obtain ⟨ahead, behind, _⟩ := (List.pairwise_cons.mp separate.apart).1 _ listed
  obtain ⟨name, shape, unmarked⟩ := separate.tail.exists_cons listed
  have single : Separate [(entity, c)] :=
    ⟨fun entry inside => separate.marked entry (by simp_all), List.pairwise_singleton _ _⟩
  refine Text.patchAll_append fun a b whole more => ?_
  cases a with
  | nil =>
    obtain rfl : other = b := whole
    refine patch_eq_none.mpr fun entry inside begins => ?_
    obtain rfl := List.mem_singleton.mp inside
    exact (List.prefix_or_prefix_of_prefix begins (List.prefix_append other s)).elim ahead behind
  | cons x a =>
    obtain ⟨e, b, rfl⟩ := List.exists_cons_of_ne_nil more
    refine patch_of_ne single (fun same => unmarked ?_) (b ++ s)
    rw [shape] at whole
    rw [(List.cons.inj whole).2, same]
    simp

/-- To decode one entity and then those of a table is to decode all of them at once. -/
theorem patchAll_patchAll (separate : Separate ((entity, c) :: entries)) (s : Text) :
    Text.patchAll (patch entries) (Text.patchAll (patch [(entity, c)]) s) =
      Text.patchAll (patch ((entity, c) :: entries)) s := by
  induction s using Text.patchAll_induct separate.changes with
  | nil => simp [Text.patchAll]
  | keep x s found ih =>
    have absent := patch_eq_none.mp found
    have quiet : patch [(entity, c)] (x :: s) = none := patch_eq_none.mpr fun entry inside =>
      absent entry (by rw [List.mem_singleton.mp inside]; exact List.mem_cons_self)
    have still : patch entries (x :: Text.patchAll (patch [(entity, c)]) s) = none := by
      refine patch_eq_none.mpr fun entry inside begins =>
        absent entry (List.mem_cons_of_mem _ inside) ?_
      rw [← Text.patchAll_of_none quiet] at begins
      exact prefix_of_decoded ((List.pairwise_cons.mp separate.apart).1 _ inside).2.2 begins
    rw [Text.patchAll_of_none quiet, Text.patchAll_of_none still, Text.patchAll_of_none found, ih]
  | patched other rest new found more entry ih =>
    obtain ⟨d, listed, rfl⟩ := entry
    rw [Text.patchAll_of_some found more, ← ih]
    rcases List.mem_cons.mp listed with first | later
    · obtain ⟨rfl, rfl⟩ := Prod.mk.inj first
      have here : patch [(other, d)] (other ++ rest) = some (other.length, [d]) := by
        simp [patch]
      have still : patch entries (d :: Text.patchAll (patch [(other, d)]) rest) = none := by
        refine patch_eq_none.mpr fun entry inside begins => ?_
        obtain ⟨name', shape', _⟩ := separate.tail.exists_cons (c := entry.2) inside
        have outside := ((List.pairwise_cons.mp separate.apart).1 _ inside).2.2
        rw [shape'] at begins outside
        exact outside (by rw [(List.cons_prefix_cons.mp begins).1]; exact List.mem_cons_self)
      rw [Text.patchAll_of_some here more, List.singleton_append, Text.patchAll_of_none still]
      rfl
    · rw [decoded_append separate later,
        Text.patchAll_of_some (patch_of_mem separate.tail later _) more]

theorem foldl_replaceAll (separate : Separate entries) (s : Text) :
    entries.foldl (fun s (entity, c) => Text.replaceAll entity [c] s) s = Text.patchAll
      (patch entries) s := by
  induction entries generalizing s with
  | nil => exact (Text.patchAll_of_quiet fun _ _ _ _ => rfl).symm
  | cons entry entries ih =>
    obtain ⟨entity, c⟩ := entry
    obtain ⟨name, shape, _⟩ := separate.exists_cons List.mem_cons_self
    have more : entity ≠ [] := by simp [shape]
    rw [List.foldl_cons, ← patchAll_patchAll separate, ← replaceAll_eq more]
    exact ih separate.tail _

/-- How a text is written with entities: each character as an entity that stands for it, or else as
it is, but no ampersand as it is. -/
inductive Escapes : Text → Text → Prop
  | nil : Escapes [] []
  | entity {entity : Text} {c : Char} {t s : Text} (listed : (entity, c) ∈ table)
      (rest : Escapes t s) :
      Escapes (c :: t) (entity ++ s)
  | plain {c : Char} {t s : Text} (other : c ≠ '&') (rest : Escapes t s) : Escapes (c :: t) (c :: s)

/-- A text with each ampersand and angle bracket written as its entity, and each quote too if one
likes. -/
def escape (quotes : Bool) (t : Text) : Text :=
  t.flatMap fun c =>
    match table.find? (·.2 == c) with
    | some (entity, _) => if quotes || !Attribute.isQuote c then entity else [c]
    | none => [c]

theorem escapes_escape (quotes : Bool) (t : Text) : Escapes t (escape quotes t) := by
  induction t with
  | nil => exact .nil
  | cons c t ih =>
    rw [escape, List.flatMap_cons]
    split
    · rename_i entity d found
      obtain rfl : d = c := by simpa using List.find?_some found
      split
      · exact .entity (List.mem_of_find?_eq_some found) ih
      · rename_i kept
        refine .plain ?_ ih
        rintro rfl
        exact kept (by cases quotes <;> decide)
    · rename_i absent
      refine .plain ?_ ih
      rintro rfl
      revert absent
      decide

/-- One pass takes the entities back. -/
theorem Escapes.patchAll {t : Text} (written : Escapes t s) :
    Text.patchAll (patch table) s = t := by
  induction written with
  | nil => rw [Text.patchAll]
  | @entity entity c t s listed _ ih =>
    obtain ⟨name, shape, _⟩ := separate_table.exists_cons listed
    rw [Text.patchAll_of_some (patch_of_mem separate_table listed s) (by simp [shape]), ih]
    rfl
  | plain other _ ih => rw [Text.patchAll_of_none (patch_of_ne separate_table other _), ih]

/-- Decoding is one pass from left to right, in which each entity is replaced and all else copied,
and what was put in is not looked at. So whichever characters of a text are written as entities, if
only its ampersands are, the text is what is read; and a text full of entities is read as it is if
it is escaped once more. -/
theorem decode_onePass (s : Text) :
    decode s = decodeOnce s ∧ (∀ t, Escapes t s → decode s = t) ∧ ∀ quotes, decode
      (escape quotes s) = s := by
  have once : ∀ s, decode s = Text.patchAll (patch table) s := foldl_replaceAll separate_table
  refine ⟨once s, fun t written => ?_, fun quotes => ?_⟩
  · rw [once, written.patchAll]
  · rw [once, (escapes_escape quotes s).patchAll]

/-- A text in which some characters are written as entities and others are not; what the ampersands
yield looks like entities and is left alone. -/
theorem decode_onePass_ampersands :
    Escapes "&lt;'\"&#39;>".toList "&amp;lt;'&quot;&amp;#39;>".toList ∧
      decode "&amp;lt;'&quot;&amp;#39;>".toList = "&lt;'\"&#39;>".toList := by
  have ampersand : ("&amp;".toList, '&') ∈ table := by decide
  have quote : ("&quot;".toList, '"') ∈ table := by decide
  have tail : Escapes "&#39;>".toList "&amp;#39;>".toList :=
    .entity ampersand (.plain (by decide)
      (.plain (by decide) (.plain (by decide) (.plain (by decide)
      (.plain (by decide) .nil)))))
  have written : Escapes "&lt;'\"&#39;>".toList "&amp;lt;'&quot;&amp;#39;>".toList :=
    .entity ampersand (.plain (by decide)
      (.plain (by decide) (.plain (by decide) (.plain (by decide)
      (.entity quote tail)))))
  exact ⟨written, (decode_onePass _).2.1 _ written⟩

end MarkupActions.Entity
