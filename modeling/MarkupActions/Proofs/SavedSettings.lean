import MarkupActions.Proofs.JsonForms
import MarkupActions.Proofs.TomlSections

/-!
# Saved settings

Settings are loaded again from the file that they are saved to, whatever their texts are made of.
Saving fails where a threshold is greater than a TOML integer may be, and then it leaves the file as
it was.
-/

namespace MarkupActions

open Toml (Line Section)

/-! ## Values as they are written -/

namespace Toml

theorem Line.reads_string {key : String} (bare : IsBare key) (s : String) :
    Line.Reads ⟨key, writeString s.toList, string s⟩ where
  bare := bare
  dark rest := by
    obtain ⟨q, t, written, dark, _⟩ := isDark_head_writeString s.toList
    simp [written, skipBlanks_cons (isDark_iff.mp dark).1]
  read rest := readValue?_string (by decide) (by decide) s rest

theorem Line.reads_boolean {key : String} (bare : IsBare key) (b : Bool) :
    Line.Reads ⟨key, Settings.writeBool b, boolean b⟩ where
  bare := bare
  dark rest := by cases b <;> rfl
  read rest := readValue?_boolean b ('\n' :: rest)

theorem Line.reads_word {key : String} (bare : IsBare key) {n : UInt64}
    (fits : n.toNat ≤ Settings.maxInteger) :
    Line.Reads ⟨key, Settings.writeWord n, integer n.toNat⟩ where
  bare := bare
  dark rest := by
    obtain ⟨d, ds, whole, digit⟩ := head_writeWord n
    simp [whole, skipBlanks, Text.isSpaceOrTab, Text.ne_of_kind digit ' ',
      Text.ne_of_kind digit '\t']
  read rest := readValue?_word fits rest

theorem Line.reads_strings {key : String} (bare : IsBare key) (items : List String) :
    Line.Reads ⟨key, Settings.writeStrings items, array (items.map string)⟩ where
  bare := bare
  dark rest := by
    obtain ⟨t, whole⟩ : ∃ t, Settings.writeStrings items = '[' :: t := by
      match items with
      | [] => exact ⟨_, rfl⟩
      | [s] => exact ⟨_, rfl⟩
      | s :: next :: items => exact ⟨_, rfl⟩
    simp [whole, skipBlanks_cons (show Text.isSpaceOrTab '[' = false by decide)]
  read rest := by
    have more := length_lt_writeStrings items ('\n' :: rest)
    exact readValue?_strings items (by dsimp only; omega) ('\n' :: rest)

end Toml

/-! ## Settings in JSON -/

section

variable {surplus : Json.Surplus} {m : List (String × Json)}

/-- Settings are read from any members among which their own can be looked up. -/
theorem ParserSettings.ofJson?_object {settings : ParserSettings}
    (disabled : m.lookup "disabled_tags" = some (Json.strings settings.disabledTags))
    (tags : m.lookup "max_distinct_action_tags" =
      some (Json.ofWord settings.screening.maxDistinctTags))
    (newlines : m.lookup "max_escaped_newlines" =
      some (Json.ofWord settings.screening.maxEscapedNewlines))
    (edits : m.lookup "detect_self_edit" = some (.bool settings.screening.selfEdits)) :
    ofJson? surplus (.object m) = some settings := by
  simp only [ofJson?, Json.record?, Json.withDefault?_eq disabled, Json.withDefault?_eq tags,
    Json.withDefault?_eq newlines, Json.withDefault?_eq edits, Json.strings?_strings,
      Json.word?_ofWord, Json.bool?,
    Option.bind_eq_bind, Option.bind_some]

theorem Settings.ofJson?_object {settings : Settings}
    (general : m.lookup "general" = some (.object [("log_level", .string settings.logLevel)]))
    (parser : m.lookup "parser" = some settings.parser.toJson)
    (executor : m.lookup "executor" = some (.object [("one_at_a_time", .bool settings.oneAtATime)]))
    :
    ofJson? surplus (.object m) = some settings := by
  have level : logLevelOfJson? surplus (.object [("log_level", .string settings.logLevel)]) =
    some settings.logLevel :=
    rfl
  have inner : ParserSettings.ofJson? surplus settings.parser.toJson = some settings.parser :=
    ParserSettings.ofJson?_object rfl rfl rfl rfl
  have single : oneAtATimeOfJson? surplus (.object [("one_at_a_time", .bool settings.oneAtATime)]) =
      some settings.oneAtATime := rfl
  simp only [ofJson?, Json.record?, Json.withDefault?_eq general, Json.withDefault?_eq parser,
    Json.withDefault?_eq executor, level, inner, single, Option.bind_eq_bind, Option.bind_some]

theorem Settings.ofJson?_toJson (settings : Settings) :
    ofJson? surplus settings.toJson = some settings :=
  ofJson?_object rfl rfl rfl

end

namespace Settings

/-! ## The text of a file -/

def sections (settings : Settings) : List Section :=
  let screening := settings.parser.screening
  [⟨"general", [⟨"log_level", Toml.writeString settings.logLevel.toList,
    .string settings.logLevel⟩]⟩, ⟨"parser",
    [⟨"disabled_tags", writeStrings settings.parser.disabledTags,
    .array (settings.parser.disabledTags.map .string)⟩,
    ⟨"max_distinct_action_tags", writeWord screening.maxDistinctTags,
    .integer screening.maxDistinctTags.toNat⟩,
    ⟨"max_escaped_newlines", writeWord screening.maxEscapedNewlines,
    .integer screening.maxEscapedNewlines.toNat⟩,
    ⟨"detect_self_edit", writeBool screening.selfEdits, .boolean screening.selfEdits⟩]⟩,
    ⟨"executor", [⟨"one_at_a_time", writeBool settings.oneAtATime, .boolean settings.oneAtATime⟩]⟩]

theorem write_eq_documentText (settings : Settings) :
    settings.write = Toml.documentText settings.sections := by
  have general : "[general]\n".toList = '[' :: ("general".toList ++ [']', '\n']) := rfl
  have parser : "\n[parser]\n".toList = '\n' :: '[' :: ("parser".toList ++ [']', '\n']) := rfl
  have executor : "\n[executor]\n".toList = '\n' :: '[' :: ("executor".toList ++ [']', '\n']) := rfl
  unfold write
  simp only [general, parser, executor, sections, Toml.documentText, Section.written, Line.written,
    List.flatMap_cons, List.flatMap_nil, List.append_assoc, List.cons_append, List.nil_append,
    List.append_nil]

theorem fits_iff (settings : Settings) :
    settings.fits = true ↔ settings.parser.screening.maxDistinctTags.toNat ≤ 9223372036854775807 ∧
      settings.parser.screening.maxEscapedNewlines.toNat ≤ 9223372036854775807 := by
  rw [fits, Bool.and_eq_true, decide_eq_true_iff, decide_eq_true_iff]
  rfl

/-- Where the thresholds fit, every section is read as its table. -/
theorem reads_sections {settings : Settings} (fits : settings.fits = true) :
    ∀ part ∈ settings.sections, part.Reads := by
  obtain ⟨tags, newlines⟩ := settings.fits_iff.mp fits
  simp only [sections, List.forall_mem_cons]
  refine ⟨?general, ?parser, ?executor, fun _ none => nomatch none⟩
  case general =>
    refine ⟨show Toml.IsBare "general" by decide, ?_, show ["log_level"].Nodup by decide⟩
    simp only [List.forall_mem_cons]
    exact ⟨Line.reads_string (by decide) _, fun _ none => nomatch none⟩
  case parser =>
    refine ⟨show Toml.IsBare "parser" by decide, ?_, show
      ["disabled_tags", "max_distinct_action_tags", "max_escaped_newlines",
        "detect_self_edit"].Nodup by decide⟩
    simp only [List.forall_mem_cons]
    exact ⟨Line.reads_strings (by decide) _, Line.reads_word (by decide) tags,
      Line.reads_word (by decide) newlines, Line.reads_boolean (by decide) _, fun _ none =>
      nomatch none⟩
  case executor =>
    refine ⟨show Toml.IsBare "executor" by decide, ?_, show ["one_at_a_time"].Nodup by decide⟩
    simp only [List.forall_mem_cons]
    exact ⟨Line.reads_boolean (by decide) _, fun _ none => nomatch none⟩

theorem listToJson_strings (items : List String) :
    Toml.listToJson (items.map .string) = items.map .string := by
  induction items with
  | nil => rfl
  | cons s items ih => rw [List.map_cons, List.map_cons, Toml.listToJson, Toml.toJson, ih]

theorem membersToJson_sections (settings : Settings) :
    .object (Toml.membersToJson (settings.sections.map Section.member)) = settings.toJson := by
  simp [sections, Section.member, Line.member, Toml.membersToJson, Toml.toJson, listToJson_strings,
    toJson, ParserSettings.toJson, Json.strings, Json.ofWord]

/-- The text of a settings file is read as the settings that it was written for. -/
theorem parse?_write {settings : Settings} (fits : settings.fits = true) :
    parse? settings.write = some settings := by
  have distinct : (settings.sections.map Section.name).Nodup :=
    show ["general", "parser", "executor"].Nodup by decide
  rw [parse?, write_eq_documentText, Toml.read?_documentText (reads_sections fits) distinct,
    Option.bind_some, membersToJson_sections, ofJson?_toJson]

/-- A text is what its bytes encode. -/
theorem textOf?_toUTF8 (s : Text) : textOf? (String.ofList s).toUTF8 = some s := by
  simp only [textOf?, String.fromUTF8?, String.toUTF8_eq_toByteArray,
    dif_pos (String.ofList s).isValidUTF8]
  exact congrArg some String.toList_ofList

theorem load_toUTF8 {settings : Settings} (fits : settings.fits = true) :
    load (some (String.ofList settings.write).toUTF8) = .ok settings := by
  simp only [load, textOf?_toUTF8, parse?_write fits]

/-- Settings whose thresholds fit are loaded again from the file that they are saved to; saving any
others fails and leaves the file as it was. -/
theorem load_saveTo (settings : Settings) (file : Option ByteArray) :
    if settings.parser.screening.maxDistinctTags.toNat ≤ 9223372036854775807 ∧
        settings.parser.screening.maxEscapedNewlines.toNat ≤ 9223372036854775807 then
      ∃ saved, settings.saveTo.run.run file = (.ok (), some saved) ∧ load
        (some saved) = .ok settings
    else ∃ reason, settings.saveTo.run.run file = (.error (.invalid reason), file) := by
  split
  · rename_i small
    have fits := settings.fits_iff.mpr small
    refine ⟨(String.ofList settings.write).toUTF8, ?_, load_toUTF8 fits⟩
    rw [saveTo, save, if_pos fits]
    rfl
  · rename_i large
    have unfit : ¬ settings.fits = true := fun fits => large (settings.fits_iff.mp fits)
    refine ⟨none, ?_⟩
    rw [saveTo, save, if_neg unfit]
    rfl

end Settings

end MarkupActions
