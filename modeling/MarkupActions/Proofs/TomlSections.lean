import MarkupActions.Proofs.TomlValues

/-!
# Sections of a TOML document

A document of sections is read back as their tables: each section has a header and bare keys with
their values, one on a line, and an empty line stands between two sections. No name may stand twice.
-/

namespace MarkupActions.Toml

variable {c : Char} {s t rest : Text} {name : String} {members inner result : Members}
    {draft later : Draft}

/-! ## Bare keys -/

/-- Whether a name may stand as a key without quotes. -/
def IsBare (name : String) : Prop := name.toList ≠ [] ∧ ∀ c ∈ name.toList, isBareKey c = true

instance (name : String) : Decidable (IsBare name) := inferInstanceAs (Decidable (_ ∧ _))

theorem isDark_of_isBareKey (bare : isBareKey c = true) : isDark c = true := by
  simp [isDark_iff, Text.isSpaceOrTab, Text.ne_of_kind bare ' ', Text.ne_of_kind bare '\t',
    Text.ne_of_kind bare '#', Text.ne_of_kind bare '\n', Text.ne_of_kind bare '\r']

theorem IsBare.head (bare : IsBare name) : ∃ c t, name.toList = c :: t ∧ isBareKey c = true := by
  obtain ⟨c, t, whole⟩ := List.exists_cons_of_ne_nil bare.1
  exact ⟨c, t, whole, bare.2 c (by rw [whole]; exact List.mem_cons_self)⟩

theorem readKeyPart?_bare (bare : IsBare name) (stop : rest.head?.any isBareKey = false) :
    readKeyPart? (name.toList ++ rest) = some (name, rest) := by
  have taken := Text.takeWhile_exact bare.2 stop
  simp [readKeyPart?, taken, bare.1]

/-- A key is one part where no point follows it. -/
theorem readKey?_bare (bare : IsBare name) (stop : rest.head?.any isBareKey = false)
    (after : skipBlanks rest = c :: t)
    (point : c ≠ '.') : readKey? (name.toList ++ rest) = some (([], name), c :: t) := by
  have part := readKeyPart?_bare bare stop
  obtain ⟨d, ds, whole, head⟩ := bare.head
  have dark := (isDark_iff.mp (isDark_of_isBareKey head)).1
  rw [whole, List.cons_append] at part ⊢
  rw [readKey?, maxKeyParts, readParts?, skipBlanks_cons dark, part]
  simp [after, point]

/-! ## Lines -/

structure Line where
  key : String
  text : Text
  value : Toml

namespace Line

def written (line : Line) : Text := Settings.line line.key line.text

def member (line : Line) : String × Toml := (line.key, line.value)

/-- Whether the text of a line is read as its value. -/
structure Reads (line : Line) : Prop where
  bare : IsBare line.key
  dark : ∀ rest, skipBlanks (line.text ++ '\n' :: rest) = line.text ++ '\n' :: rest
  read : ∀ rest, readValue? (2 * (line.text ++ '\n' :: rest).length + 2) maxDepth
    (line.text ++ '\n' :: rest) =
    some (line.value, '\n' :: rest)

variable {line : Line}

theorem written_append (line : Line) (rest : Text) :
    line.written ++ rest = line.key.toList ++ ' ' :: '=' :: ' ' :: (line.text ++ '\n' :: rest) := by
  simp [written, Settings.line]

/-- A line adds its member to the table that is open. -/
theorem Reads.entry (reads : line.Reads) (draft : Draft) (rest : Text) :
    readEntry? draft (line.written ++ rest) =
      (editAt false (addKey [] line.key line.value) draft.path .header draft.members).map
      fun members =>
        (⟨members, draft.path⟩, '\n' :: rest) := by
  have key : readKey? (line.key.toList ++ ' ' :: '=' :: ' ' :: (line.text ++ '\n' :: rest)) =
      some (([], line.key), '=' :: ' ' :: (line.text ++ '\n' :: rest)) :=
    readKey?_bare reads.bare (by rfl) rfl (by decide)
  have value : skipBlanks (' ' :: (line.text ++ '\n' :: rest)) = line.text ++ '\n' :: rest :=
    reads.dark rest
  obtain ⟨d, ds, whole, head⟩ := reads.bare.head
  have bracket : d ≠ '[' := Text.ne_of_kind head '['
  rw [written_append]
  rw [whole, List.cons_append] at key ⊢
  rw [ readEntry?]
  · simp only [key, after?, if_true, Option.bind_eq_bind, Option.bind_some, value, reads.read]
    cases editAt false (addKey [] line.key line.value) draft.path .header draft.members <;> rfl
  · exact fun s same => bracket (List.cons.inj same).1
  · exact fun s same => bracket (List.cons.inj same).1

end Line

/-! ## Tables -/

theorem lookup_append_of_ne {key : String} (missing : members.lookup key = none)
    (differ : key ≠ name) (value : Toml) :
    (members ++ [(name, value)]).lookup key = none := by
  simp [List.lookup_append, missing, differ]

theorem replace_of_lookup_eq_none (fresh : members.lookup name = none) (value : Toml) :
    replace name value members = members := by
  rw [List.lookup_eq_none_iff] at fresh
  rw [replace, List.map_congr_left, List.map_id]
  intro member listed
  have other : member.1 ≠ name := fun same => by simpa [same] using fresh member listed
  simp [other]

/-- What is done to the table of the last header. -/
theorem editAt_last (fresh : members.lookup name = none) (edit : Edit) :
    editAt false edit [name] .header (members ++ [(name, table .header inner)]) =
      (edit .header inner).map fun inner => members ++ [(name, table .header inner)] := by
  have found : (members ++ [(name, table .header inner)]).lookup name =
    some (table .header inner) := by
    simp [List.lookup_append, fresh]
  have replaced (value : Toml) :
      replace name value (members ++ [(name, table .header inner)]) = members ++
        [(name, value)] := by
    have kept := replace_of_lookup_eq_none fresh value
    rw [replace] at kept
    simp [replace, kept]
  simp [editAt, found, replaced]

theorem addKey_new {key : String} (new : inner.lookup key = none) (value : Toml) :
    addKey [] key value .header inner = some (inner ++ [(key, value)]) := by
  simp [addKey, editAt, new]

theorem addTable_new (fresh : members.lookup name = none) :
    addTable [] name .header members = some (members ++ [(name, table .header [])]) := by
  simp [addTable, editAt, fresh]

/-! ## What is left of a document -/

/-- What is left of a document leads to these members; every bound above its length is enough. -/
def Leads (draft : Draft) (s : Text) (result : Members) : Prop :=
  ∀ bound, s.length < bound → readLines? bound draft s = some result

theorem leads_nil (draft : Draft) : Leads draft [] draft.members := by
  intro bound enough
  obtain ⟨bound, rfl⟩ := Nat.exists_eq_succ_of_ne_zero (Nat.ne_zero_of_lt enough)
  rfl

theorem Leads.blank (leads : Leads draft s result) : Leads draft ('\n' :: s) result := by
  intro bound enough
  obtain ⟨bound, rfl⟩ := Nat.exists_eq_succ_of_ne_zero (Nat.ne_zero_of_lt enough)
  exact leads bound (Nat.lt_of_succ_lt_succ enough)

theorem Leads.entry (leads : Leads later rest result) (dark : isDark c = true)
    (entry : readEntry? draft (c :: s) = some (later, '\n' :: rest))
    (shorter : rest.length ≤ s.length) :
    Leads draft (c :: s) result := by
  intro bound enough
  obtain ⟨bound, rfl⟩ := Nat.exists_eq_succ_of_ne_zero (Nat.ne_zero_of_lt enough)
  have tail := leads bound (Nat.lt_of_le_of_lt shorter (Nat.lt_of_succ_lt_succ enough))
  simp only [readLines?, skipBlanks_cons (isDark_iff.mp dark).1, afterLine?_dark dark, entry,
    Option.bind_eq_bind, Option.bind_some, afterLine?_newline, tail]

/-- A header opens a table of its own. -/
theorem Leads.header (leads : Leads ⟨members ++ [(name, table .header [])], [name]⟩ rest result)
    (bare : IsBare name)
    (fresh : members.lookup name = none) (path : List String) :
    Leads ⟨members, path⟩ ('[' :: (name.toList ++ ']' :: '\n' :: rest)) result := by
  have key : readKey? (name.toList ++ ']' :: '\n' :: rest) =
    some (([], name), ']' :: '\n' :: rest) :=
    readKey?_bare bare (by rfl) rfl (by decide)
  refine leads.entry (by decide) ?_ (by simp; omega)
  obtain ⟨d, ds, whole, head⟩ := bare.head
  have bracket : d ≠ '[' := Text.ne_of_kind head '['
  rw [whole, List.cons_append] at key ⊢
  rw [ readEntry?]
  · simp only [key, after?, if_true, Option.bind_eq_bind, Option.bind_some, addTable_new fresh,
      List.nil_append]
  · exact fun s same => bracket (List.cons.inj same).1

theorem Leads.line {line : Line}
    (leads : Leads ⟨members ++ [(name, table .header (inner ++ [line.member]))], [name]⟩ rest
      result) (reads : line.Reads)
    (fresh : members.lookup name = none) (new : inner.lookup line.key = none) :
    Leads ⟨members ++ [(name, table .header inner)], [name]⟩ (line.written ++ rest) result := by
  have entry := reads.entry ⟨members ++ [(name, table .header inner)], [name]⟩ rest
  rw [editAt_last fresh, addKey_new new, Option.map_some, Option.map_some] at entry
  obtain ⟨d, ds, whole, head⟩ := reads.bare.head
  rw [line.written_append] at entry ⊢
  rw [whole, List.cons_append] at entry ⊢
  exact leads.entry (isDark_of_isBareKey head) entry (by simp; omega)

/-- The lines of a section add their members to its table, by induction on the lines. -/
theorem Leads.lines {lines : List Line}
    (leads : Leads ⟨members ++ [(name, table .header (inner ++ lines.map Line.member))], [name]⟩
      rest result)
    (reads : ∀ line ∈ lines, line.Reads) (fresh : members.lookup name = none)
    (new : ∀ line ∈ lines, inner.lookup line.key = none) (distinct : (lines.map Line.key).Nodup) :
    Leads ⟨members ++ [(name, table .header inner)], [name]⟩
      (lines.flatMap Line.written ++ rest) result := by
  induction lines generalizing inner with
  | nil => simpa using leads
  | cons line lines ih =>
    rw [List.map_cons, List.nodup_cons] at distinct
    have later : ∀ other ∈ lines, (inner ++ [line.member]).lookup other.key = none := by
      intro other listed
      have differ : other.key ≠ line.key :=
        fun same => distinct.1 (same ▸ List.mem_map_of_mem listed)
      exact lookup_append_of_ne (new other (List.mem_cons_of_mem _ listed)) differ _
    have tail := ih (by simpa using leads)
      (fun other listed => reads other (List.mem_cons_of_mem _ listed)) later
      distinct.2
    rw [List.flatMap_cons, List.append_assoc]
    exact tail.line (reads line List.mem_cons_self) fresh (new line List.mem_cons_self)

/-! ## Documents -/

structure Section where
  name : String
  lines : List Line

namespace Section

def written (part : Section) : Text :=
  '[' :: (part.name.toList ++ ']' :: '\n' :: part.lines.flatMap Line.written)

def member (part : Section) : String × Toml :=
  (part.name, table .header (part.lines.map Line.member))

structure Reads (part : Section) : Prop where
  bare : IsBare part.name
  lines : ∀ line ∈ part.lines, line.Reads
  distinct : (part.lines.map Line.key).Nodup

end Section

theorem Leads.part {part : Section}
    (leads : Leads ⟨members ++ [part.member], [part.name]⟩ rest result)
    (reads : part.Reads) (fresh : members.lookup part.name = none) (path : List String) :
    Leads ⟨members, path⟩ (part.written ++ rest) result := by
  have lines : Leads ⟨members ++ [(part.name, table .header [])], [part.name]⟩
      (part.lines.flatMap Line.written ++ rest) result :=
    Leads.lines leads reads.lines fresh (fun _ _ => rfl) reads.distinct
  simpa [Section.written] using lines.header reads.bare fresh path

/-- The text of a document: an empty line stands between two sections. -/
def documentText : List Section → Text
  | [] => []
  | first :: more => first.written ++ more.flatMap fun part => '\n' :: part.written

theorem leads_parts {parts : List Section} (reads : ∀ part ∈ parts, part.Reads)
    (fresh : ∀ part ∈ parts, members.lookup part.name = none)
    (distinct : (parts.map Section.name).Nodup)
    (path : List String) :
    Leads ⟨members, path⟩ (parts.flatMap fun part => '\n' :: part.written)
      (members ++ parts.map Section.member) := by
  induction parts generalizing members path with
  | nil => simpa using leads_nil ⟨members, path⟩
  | cons part parts ih =>
    rw [List.map_cons, List.nodup_cons] at distinct
    have later : ∀ other ∈ parts, (members ++ [part.member]).lookup other.name = none := by
      intro other listed
      have differ : other.name ≠ part.name :=
        fun same => distinct.1 (same ▸ List.mem_map_of_mem listed)
      exact lookup_append_of_ne (fresh other (List.mem_cons_of_mem _ listed)) differ _
    have tail := ih (fun other listed => reads other (List.mem_cons_of_mem _ listed)) later
      distinct.2 [part.name]
    rw [List.append_assoc] at tail
    exact (tail.part (reads part List.mem_cons_self) (fresh part List.mem_cons_self) path).blank

/-- A document is read as the tables of its sections. -/
theorem read?_documentText {parts : List Section} (reads : ∀ part ∈ parts, part.Reads)
    (distinct : (parts.map Section.name).Nodup) :
    read? (documentText parts) = some (parts.map Section.member) := by
  cases parts with
  | nil => rfl
  | cons first more =>
    rw [List.map_cons, List.nodup_cons] at distinct
    have fresh : ∀ part ∈ more, [first.member].lookup part.name = none := by
      intro part listed
      have differ : part.name ≠ first.name :=
        fun same => distinct.1 (same ▸ List.mem_map_of_mem listed)
      exact @lookup_append_of_ne first.name [] part.name rfl differ _
    have rest := leads_parts (fun part listed => reads part (List.mem_cons_of_mem _ listed)) fresh
      distinct.2 [first.name]
    -- The first section has no empty line in front of it, so it is not one of those that
    -- `leads_parts` is about.
    have all : Leads ⟨[], []⟩ (documentText (first :: more)) ((first :: more).map Section.member) :=
      rest.part (reads first List.mem_cons_self) rfl []
    exact all _ (Nat.lt_succ_self _)

end MarkupActions.Toml
