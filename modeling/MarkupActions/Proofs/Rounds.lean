import MarkupActions.Proofs.Renamed

/-!
# Renaming in rounds

Renaming can be done in rounds, each of which goes on to the next token. What has been passed is
held back until the next name is written, and where a block opens its body is passed at once. Each
round passes a bracket, so the rounds come to an end on every text, and what comes out in the end is
the same after each of them.
-/

namespace MarkupActions

namespace SpellingTable

variable {table : SpellingTable}

/-- The next token of a text, with what stands before and behind it. -/
def nextToken? : Text → Option (Text × TagToken × Text)
  | [] => none
  | c :: s =>
    match TagToken.read? (c :: s) with
    | some token => some ([], token, (c :: s).drop token.text.length)
    | none => (nextToken? s).map fun (front, token, rest) => (c :: front, token, rest)

/-- Renaming on its way: what has been written, what has been passed and not yet written, and what
is left. -/
structure Scan where
  written : Text
  held : Text
  rest : Text

namespace Scan

/-- The scan behind a token, which stands behind `front` and before `rest`. Where a block opens, its
body and its closing tag are passed as well. -/
def pass (table : SpellingTable) (scan : Scan) (front : Text) (token : TagToken) (rest : Text) :
    Scan :=
  match table.canonical? token.name with
  | none => ⟨scan.written, scan.held ++ (front ++ token.text), rest⟩
  | some tag =>
    let written := scan.written ++ (scan.held ++ (front ++ (TagToken.mk token.closing tag).text))
    if token.closing || !table.isContent tag ||
      TagToken.endsInSlash none false rest then ⟨written, [], rest⟩
    else match closing? .content (table.closes? tag) rest with
      | none => ⟨written, [], rest⟩
      | some (pos, n) => ⟨written ++ (rest.take (pos + 2) ++ tag), [], rest.drop (pos + n)⟩

def next? (table : SpellingTable) (scan : Scan) : Option Scan :=
  (nextToken? scan.rest).map fun (front, token, rest) => scan.pass table front token rest

/-- What comes out when no token is left, if some number of rounds is enough for that. -/
def run (table : SpellingTable) : Nat → Scan → Option Text
  | 0, _ => none
  | rounds + 1, scan =>
    match scan.next? table with
    | none => some (scan.written ++ (scan.held ++ scan.rest))
    | some scan => run table rounds scan

/-- What is to come out of a scan in the end. -/
def outcome (table : SpellingTable) (scan : Scan) : Text :=
  scan.written ++ (scan.held ++ table.rename scan.rest)

end Scan

/-- Up to the next token nothing is renamed, and if there is none, nothing at all. -/
theorem rename_nextToken? (table : SpellingTable) (s : Text) :
    (nextToken? s = none ∧ table.rename s = s) ∨
      ∃ front token rest, nextToken? s = some (front, token, rest) ∧
        s = front ++ (token.text ++ rest) ∧
        TagToken.read? (token.text ++ rest) = some token ∧ table.rename s = front ++ table.rename
          (token.text ++ rest) := by
  induction s with
  | nil =>
    left
    rw [rename]
    exact ⟨rfl, rfl⟩
  | cons c s ih =>
    cases read : TagToken.read? (c :: s) with
    | some token =>
      right
      obtain ⟨rest, whole, _⟩ := TagToken.read?_eq_some.mp read
      have cut : (c :: s).drop token.text.length = rest := by rw [whole, List.drop_left]
      refine ⟨[], token, rest, ?_, whole, whole ▸ read, by rw [whole]; rfl⟩
      rw [nextToken?, read]
      simp only [cut]
    | none =>
      rw [nextToken?, read, rename_unread read]
      rcases ih with ⟨none', same⟩ | ⟨front, token, rest, found, whole, read', same⟩
      · left
        simp only [none', Option.map_none, same, and_self]
      · right
        exact ⟨c :: front, token, rest,
          by rw [found]; rfl, by rw [whole]; rfl, read', by rw [same]; rfl⟩

theorem rename_unknown_token {token : TagToken} {rest : Text}
    (read : TagToken.read? (token.text ++ rest) = some token)
    (unknown : table.canonical? token.name = none) :
    table.rename (token.text ++ rest) = token.text ++ table.rename rest := by
  have tags := TagToken.not_mem_tail (TagToken.inv_read?_text read).1
  obtain ⟨slash, shape, _⟩ := token.text_eq
  rw [shape, List.tail_cons] at tags
  rw [shape, List.cons_append] at read ⊢
  rw [rename_unknown read unknown, rename_prose tags]
  rfl

namespace Scan

theorem outcome_pass (scan : Scan) (front : Text) {token : TagToken} {rest : Text}
    (read : TagToken.read? (token.text ++ rest) = some token) :
    (scan.pass table front token rest).outcome table =
      scan.written ++ (scan.held ++ (front ++ table.rename (token.text ++ rest))) := by
  unfold pass
  cases known : table.canonical? token.name with
  | none => simp [outcome, rename_unknown_token read known]
  | some tag =>
    rw [rename_token read known]
    simp only
    split
    · simp [outcome]
    · cases closing? .content (table.closes? tag) rest with
      | none => simp [outcome]
      | some place => simp [outcome]

theorem suffix_rest_pass (table : SpellingTable) (scan : Scan) (front : Text) (token : TagToken)
    (rest : Text) :
    (scan.pass table front token rest).rest <:+ rest := by
  unfold pass
  cases table.canonical? token.name with
  | none => exact List.suffix_rfl
  | some tag =>
    simp only
    split
    · exact List.suffix_rfl
    · cases closing? .content (table.closes? tag) rest with
      | none => exact List.suffix_rfl
      | some place => exact List.drop_suffix _ _

/-- A round changes nothing about the outcome, and passes a bracket. If there is none, all has been
done. -/
theorem next?_spec (table : SpellingTable) (scan : Scan) :
    (scan.next? table = none ∧ scan.outcome table = scan.written ++ (scan.held ++ scan.rest)) ∨
      ∃ later : Scan, scan.next? table = some later ∧ later.outcome table = scan.outcome table ∧
        later.rest.count '<' < scan.rest.count '<' := by
  rcases rename_nextToken? table scan.rest with
    ⟨none', same⟩ | ⟨front, token, rest, found, whole, read, same⟩
  · left
    rw [next?, none', outcome, same]
    exact ⟨rfl, rfl⟩
  · right
    refine ⟨scan.pass table front token rest, by rw [next?, found]; rfl, ?_, ?_⟩
    · rw [outcome_pass scan front read, outcome, same]
    · have part := (scan.suffix_rest_pass table front token rest).sublist.count_le '<'
      obtain ⟨slash, shape, _⟩ := token.text_eq
      rw [whole, shape]
      simp only [List.cons_append, List.count_append, List.count_cons_self]
      omega

/-- The rounds come to an end, and give the outcome. -/
theorem run_eq {rounds : Nat} {scan : Scan} (enough : scan.rest.count '<' < rounds) :
    scan.run table rounds = some (scan.outcome table) := by
  induction rounds generalizing scan with
  | zero => exact False.elim (Nat.not_lt_zero _ enough)
  | succ rounds ih =>
    rw [run]
    rcases scan.next?_spec table with ⟨none', same⟩ | ⟨later, found, same, less⟩
    · rw [none', same]
    · rw [found, ← same]
      exact ih (by omega)

end Scan

end SpellingTable

end MarkupActions
