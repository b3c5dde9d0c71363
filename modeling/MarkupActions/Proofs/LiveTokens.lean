import MarkupActions.Proofs.Rounds
import MarkupActions.Proofs.Tables

/-!
# What renaming respells

A token of a known name is respelled unless it stands in the body of a block, and the blocks are
those that are opened by a token which is respelled itself. All else comes out as it went in, in the
same order.
-/

namespace MarkupActions

namespace SpellingTable

/-- A token of a known name, which stands at a place of a text. -/
structure TokenAt (table : SpellingTable) (s : Text) (p : Nat) (token : TagToken) (tag : Text) :
    Prop where
  read : TagToken.read? (s.drop p) = some token
  known : table.canonical? token.name = some tag

/-- The first closing tag of a body that nothing covers. -/
structure EndsAt (table : SpellingTable) (tag body : Text) (k : Nat) : Prop where
  closes : ∃ n, table.closes? tag (body.drop k) = some n
  bare : shadow .content body k = none
  first : ∀ j < k, ∀ n, table.closes? tag (body.drop j) = some n →
    (shadow .content body j).isSome = true

/-- Whether a block that bears content opens at the place `q`, and the place `p` lies behind the
name of its tag and before the closing tag that ends it. -/
def Encloses (table : SpellingTable) (s : Text) (q p : Nat) : Prop :=
  ∃ opening tag k, TokenAt table s q ⟨false, opening⟩ tag ∧ table.isContent tag = true ∧
    TagToken.endsInSlash none false (s.drop (q + (1 + opening.length))) = false ∧
    EndsAt table tag (s.drop (q + (1 + opening.length))) k ∧
    q + (1 + opening.length) ≤ p ∧ p < q + (1 + opening.length) + k

/-- Whether a token of a known name stands at a place that is not enclosed by a token of which the
same is true. -/
def Live (table : SpellingTable) (s : Text) (p : Nat) : Prop :=
  (∃ token tag, TokenAt table s p token tag) ∧ ∀ q, q < p → Live table s q → ¬ Encloses table s q p
termination_by p

/-- A text from the place `p` on, and the same with the tokens respelled that stand at some places.
-/
inductive RespellsAt (table : SpellingTable) (live : Nat → Prop) : Nat → Text → Text → Prop
  | nil (p : Nat) : RespellsAt table live p [] []
  | keep {p : Nat} {c : Char} {s t : Text} (stays : ¬ live p)
      (rest : RespellsAt table live (p + 1) s t) :
      RespellsAt table live p (c :: s) (c :: t)
  | token {p : Nat} {token : TagToken} {tag s t : Text} (here : live p)
      (read : TagToken.read? (token.text ++ s) = some token)
        (known : table.canonical? token.name = some tag)
      (rest : RespellsAt table live (p + token.text.length) s t) :
      RespellsAt table live p (token.text ++ s) ((TagToken.mk token.closing tag).text ++ t)

variable {table : SpellingTable} {s t : Text} {p q : Nat}

theorem live_iff : Live table s p ↔
    (∃ token tag, TokenAt table s p token tag) ∧ ∀ q, q < p → Live table s q →
    ¬ Encloses table s q p := by
  rw [Live]

theorem RespellsAt.append_keep {live : Nat → Prop} {u : Text}
    (still : ∀ q, p ≤ q → q < p + u.length → ¬ live q)
    (rest : RespellsAt table live (p + u.length) s t) :
    RespellsAt table live p (u ++ s) (u ++ t) := by
  induction u generalizing p with
  | nil => exact rest
  | cons c u ih =>
    simp only [List.length_cons] at still rest
    refine .keep (still p (Nat.le_refl p) (by omega))
      (ih (fun q later before => still q (by omega) (by omega)) ?_)
    rwa [Nat.add_assoc, Nat.add_comm 1]

/-- The search for a closing tag finds the first one that nothing covers. -/
theorem endsAt_iff {tag body : Text} {k : Nat} :
    EndsAt table tag body k ↔ ∃ n, closing? .content (table.closes? tag) body = some (k, n) := by
  have sees := seesTags_closes? table tag
  constructor
  · rintro ⟨⟨n, closes⟩, bare, first⟩
    have inside : k < body.length := by
      obtain ⟨_, more⟩ := sees _ n closes
      have size := congrArg List.length more
      simp only [List.length_drop, List.length_cons] at size
      omega
    have size : (body.take k).length = k := List.length_take_of_le (Nat.le_of_lt inside)
    have whole := (List.take_append_drop k body).symm
    refine ⟨n, ?_⟩
    have found := closing?_of_earlier sees whole closes
      (by rwa [size]) fun a b m split closes' before => by
      rw [size] at before
      refine first a.length before m ?_
      rw [split, List.drop_left]
      exact closes'
    rwa [size] at found
  · rintro ⟨n, found⟩
    obtain ⟨front, tail, rfl, rfl, closes, _, bare⟩ := closing?_sound found
    refine ⟨⟨n, by rwa [List.drop_left]⟩, bare, fun j before m closes' => ?_⟩
    have size : ((front ++ tail).take j).length = j := List.length_take_of_le (by simp; omega)
    have covered := closing?_earlier sees found
      (List.take_append_drop j (front ++ tail)).symm closes' (by rwa [size])
    rwa [size] at covered

section

variable {token : TagToken} {tag rest : Text} (here : s.drop p = token.text ++ rest)
  (read : TagToken.read? (token.text ++ rest) = some token)

include here in
theorem drop_token : s.drop (p + token.text.length) = rest := by
  rw [← List.drop_drop, here, List.drop_left]

include here read

/-- No token begins within a token. -/
theorem not_live_inside (behind : p < q) (inside : q < p + token.text.length) :
    ¬ Live table s q := by
  rw [live_iff]
  rintro ⟨⟨token', tag', at'⟩, _⟩
  obtain ⟨k, rfl⟩ : ∃ k, q = p + (k + 1) := ⟨q - p - 1, by omega⟩
  have tags := TagToken.not_mem_tail (TagToken.inv_read?_text read).1
  have within := at'.read
  obtain ⟨slash, shape, _⟩ := token.text_eq
  rw [shape, List.length_cons] at inside
  rw [shape, List.tail_cons] at tags
  rw [← List.drop_drop, here, shape, List.cons_append, List.drop_succ_cons,
    List.drop_append_of_le_length (by omega)] at within
  cases behind : (slash ++ token.name).drop k with
  | nil =>
    have size := congrArg List.length behind
    simp only [List.length_drop, List.length_nil] at size
    omega
  | cons c tail =>
    have other : c ≠ '<' := by
      rintro rfl
      exact tags (List.mem_of_mem_drop (by rw [behind]; exact List.mem_cons_self))
    rw [behind, List.cons_append, TagToken.read?_of_ne other] at within
    cases within

/-- What a token encloses is the body of the block that renaming sees there. -/
theorem encloses_iff (known : table.canonical? token.name = some tag) : Encloses table s p q ↔
    (token.closing || !table.isContent tag || TagToken.endsInSlash none false rest) = false ∧
      ∃ k n, closing? .content (table.closes? tag) rest = some (k, n) ∧
        p + token.text.length ≤ q ∧ q < p + token.text.length + k := by
  have behind := drop_token here
  obtain ⟨closing, name⟩ := token
  constructor
  · rintro ⟨opening, tag', k, ⟨read', known'⟩, content, open', ends, later, before⟩
    rw [here, read, Option.some.injEq, TagToken.mk.injEq] at read'
    obtain ⟨rfl, rfl⟩ := read'
    rw [known, Option.some.injEq] at known'
    subst known'
    have size : (TagToken.mk false name).text.length = 1 + name.length := TagToken.length_text _
    rw [← size, behind] at open' ends
    rw [← size] at later before
    obtain ⟨n, found⟩ := endsAt_iff.mp ends
    exact ⟨by simp [content, open'], k, n, found, later, before⟩
  · rintro ⟨opens, k, n, found, later, before⟩
    simp only [Bool.or_eq_false_iff, Bool.not_eq_false'] at opens
    obtain ⟨⟨rfl, content⟩, open'⟩ := opens
    have size : (TagToken.mk false name).text.length = 1 + name.length := TagToken.length_text _
    rw [size] at later before behind
    refine ⟨name, tag, k, ⟨by rw [here, read], known⟩, content, ?_, ?_, later, before⟩
    · rwa [behind]
    · rw [behind]
      exact endsAt_iff.mpr ⟨n, found⟩

/-- A token that renaming sees no block at encloses nothing. -/
theorem not_encloses_alone (known : table.canonical? token.name = some tag)
    (alone : table.Alone token tag rest) : ¬ Encloses table s p q := by
  intro encloses
  obtain ⟨opens, k, n, found, _⟩ := (encloses_iff here read known).mp encloses
  rcases alone with passed | none'
  · rw [passed] at opens
    cases opens
  · rw [none'] at found
    cases found

end

/-- No token in front of the place `p` opens a block that reaches up to the place `b`. -/
def ClearFrom (table : SpellingTable) (s : Text) (p b : Nat) : Prop :=
  ∀ q, q < p → Live table s q → ∀ place, b ≤ place → ¬ Encloses table s q place

namespace ClearFrom

variable {b b' : Nat}

theorem live (clear : ClearFrom table s p p) {token : TagToken} {tag : Text}
    (at' : TokenAt table s p token tag) :
    Live table s p :=
  live_iff.mpr ⟨⟨token, tag, at'⟩, fun q before alive => clear q before alive p (Nat.le_refl p)⟩

theorem pass (clear : ClearFrom table s p b) (still : ∀ r, p ≤ r → r < q → ¬ Live table s r) :
    ClearFrom table s q b := by
  intro r before alive
  rcases Nat.lt_or_ge r p with earlier | later
  · exact clear r earlier alive
  · exact False.elim (still r later before alive)

theorem weaken (clear : ClearFrom table s p b) (later : b ≤ b') : ClearFrom table s p b' :=
  fun q before alive place behind => clear q before alive place (Nat.le_trans later behind)

theorem keep (clear : ClearFrom table s p p) (quiet : ∀ token tag, ¬ TokenAt table s p token tag) :
    ¬ Live table s p ∧ ClearFrom table s (p + 1) (p + 1) := by
  have dead : ¬ Live table s p := fun alive => by
    obtain ⟨⟨token, tag, at'⟩, _⟩ := live_iff.mp alive
    exact quiet token tag at'
  refine ⟨dead, (clear.weaken (Nat.le_succ p)).pass fun q later before => ?_⟩
  obtain rfl : q = p := by omega
  exact dead

theorem token (clear : ClearFrom table s p b) (later : b ≤ b') {token : TagToken} {rest : Text}
    (here : s.drop p = token.text ++ rest) (read : TagToken.read? (token.text ++ rest) = some token)
    (ends : ∀ place, b' ≤ place → ¬ Encloses table s p place) :
    ClearFrom table s (p + token.text.length) b' := by
  have first : ClearFrom table s (p + 1) b' := by
    intro q before alive
    rcases Nat.lt_or_eq_of_le (Nat.le_of_lt_succ before) with earlier | rfl
    · exact clear.weaken later q earlier alive
    · exact ends
  exact first.pass fun q behind inside => not_live_inside here read behind inside

theorem alone (clear : ClearFrom table s p p) {token : TagToken} {rest : Text}
    (here : s.drop p = token.text ++ rest)
    (read : TagToken.read? (token.text ++ rest) = some token)
    (ends : ∀ place, ¬ Encloses table s p place) :
    ClearFrom table s (p + token.text.length) (p + token.text.length) :=
  clear.token (Nat.le_add_right p _) here read fun place _ => ends place

end ClearFrom

/-- At a block that no other reaches its two tags are live and its body is not, and behind it no
block reaches any more. -/
theorem respells_block {tag opening front name back : Text} (clear : ClearFrom table s p p)
    (here : s.drop p = (TagToken.mk false opening).text ++
      (front ++ ((TagToken.mk true name).text ++ back)))
    (pair : table.TagPair tag opening front name back) :
    ∃ behind, s.drop behind = back ∧ ClearFrom table s behind behind ∧
      ∀ t, RespellsAt table (Live table s) behind back t →
        RespellsAt table (Live table s) p ((TagToken.mk false opening).text ++
          (front ++ ((TagToken.mk true name).text ++ back)))
          ((TagToken.mk false tag).text ++ (front ++ ((TagToken.mk true tag).text ++ t))) := by
  have alive : Live table s p := clear.live ⟨by rw [here, pair.read], pair.known⟩
  have body := drop_token here
  have encloses : ∀ q, Encloses table s p q ↔ p + (TagToken.mk false opening).text.length ≤ q ∧
      q < p + (TagToken.mk false opening).text.length + front.length := by
    intro q
    rw [encloses_iff here pair.read pair.known]
    simp [pair.content, pair.unslashed, pair.closed]
  have more : 0 < (TagToken.mk false opening).text.length := by simp [TagToken.text]
  generalize first : p + (TagToken.mk false opening).text.length = start at body encloses
  have still : ∀ q, start ≤ q → q < start + front.length → ¬ Live table s q := by
    intro q later before live
    exact (live_iff.mp live).2 p (by omega) alive ((encloses q).mpr ⟨later, before⟩)
  have inner : ClearFrom table s start (start + front.length) := by
    rw [← first]
    refine clear.token (by omega) here pair.read fun place later encloses' => ?_
    have before := ((encloses place).mp encloses').2
    omega
  have clear' := inner.pass still
  have last : s.drop (start + front.length) = (TagToken.mk true name).text ++ back := by
    rw [← List.drop_drop, body, List.drop_left]
  obtain ⟨named, known', blanks, rest, rfl, blank⟩ := closes?_text pair.closes
  have stop : (blanks ++ '>' :: rest).head?.any Text.isNameChar = false :=
    not_isNameChar_closing blank
  have read' := @TagToken.read?_text ⟨true, name⟩ named _ stop
  have alive' : Live table s (start + front.length) := clear'.live ⟨by rw [last, read'], known'⟩
  have past := clear'.alone last read' fun _ => not_encloses_alone last read' known' (.inl rfl)
  refine ⟨_, drop_token last, past, fun t rest => .token alive pair.read pair.known ?_⟩
  rw [first]
  exact .append_keep still (.token alive' read' known' rest)

/-- From a place on that no block reaches, just the live tokens are respelled. -/
theorem respells_drop (here : s.drop p = t) (clear : ClearFrom table s p p) :
    RespellsAt table (Live table s) p t (table.rename t) := by
  induction t using rename_induct table generalizing p with
  | nil =>
    rw [rename]
    exact .nil p
  | keep c t unknown ih =>
    have next : s.drop (p + 1) = t := by
      rw [← List.drop_drop, here]
      rfl
    have quiet : ∀ token tag, ¬ TokenAt table s p token tag := by
      rintro token tag ⟨read, known⟩
      rw [here] at read
      rw [unknown token read] at known
      cases known
    obtain ⟨dead, clear'⟩ := clear.keep quiet
    rw [rename_keep unknown]
    exact .keep dead (ih next clear')
  | alone token tag rest read known alone ih =>
    have alive : Live table s p := clear.live ⟨by rw [here, read], known⟩
    have clear' := clear.alone here read fun _ => not_encloses_alone here read known alone
    rw [rename_alone read known alone]
    exact .token alive read known (ih (drop_token here) clear')
  | block tag opening front name back pair ih =>
    obtain ⟨later, back', clear', respells⟩ := respells_block clear here pair
    rw [rename_block pair]
    exact respells _ (ih back' clear')

/-- Renaming respells the live tokens and nothing else. A token of a known name is live unless a
live opening tag encloses it, and the rounds that renaming takes are no more than there are
brackets. -/
theorem rename_respells (table : SpellingTable) (s : Text) :
    RespellsAt table (Live table s) 0 s (table.rename s) ∧
      (∀ p token tag, TokenAt table s p token tag →
        (¬ Live table s p ↔ ∃ q, Live table s q ∧ Encloses table s q p)) ∧
      ∀ rounds, s.count '<' < rounds → Scan.run table rounds ⟨[], [], s⟩ = some
        (table.rename s) := by
  refine ⟨respells_drop rfl fun q before =>
    absurd before (Nat.not_lt_zero q), fun p token tag at' => ?_, fun rounds enough =>
    Scan.run_eq enough⟩
  rw [live_iff]
  constructor
  · intro dead
    by_contra none'
    refine dead ⟨⟨token, tag, at'⟩, fun q _ alive encloses => none' ⟨q, alive, encloses⟩⟩
  · rintro ⟨q, alive, encloses⟩ ⟨_, free⟩
    obtain ⟨_, _, _, _, _, _, _, later, _⟩ := id encloses
    exact free q (by omega) alive encloses

/-- In the body of a file that is written a token stays, and the tags around it are respelled. -/
theorem rename_respells_file :
    Live Registry.builtIn.table "<write-file><cat/></WRITE>".toList 0 ∧
      ¬ Live Registry.builtIn.table "<write-file><cat/></WRITE>".toList 12 ∧
      Scan.run Registry.builtIn.table 4 ⟨[], [], "<write-file><cat/></WRITE>".toList⟩ =
        some "<write><cat/></write>".toList := by
  obtain ⟨_, dead_iff, done⟩ := rename_respells Registry.builtIn.table
    "<write-file><cat/></WRITE>".toList
  have here : "<write-file><cat/></WRITE>".toList.drop 0 =
      (TagToken.mk false "write-file".toList).text ++ "><cat/></WRITE>".toList := rfl
  have read : TagToken.read? ((TagToken.mk false "write-file".toList).text ++
    "><cat/></WRITE>".toList) =
      some ⟨false, "write-file".toList⟩ := rfl
  have known : Registry.builtIn.table.canonical? "write-file".toList = some "write".toList := by
    decide +kernel
  have alive : Live Registry.builtIn.table "<write-file><cat/></WRITE>".toList 0 :=
    live_iff.mpr ⟨⟨_, _, read, known⟩, fun q before => absurd before (Nat.not_lt_zero q)⟩
  have encloses : Encloses Registry.builtIn.table "<write-file><cat/></WRITE>".toList 0 12 :=
    (encloses_iff here read known).mpr ⟨by decide +kernel, 7, 7,
      by decide +kernel, by decide +kernel⟩
  have at' : TokenAt Registry.builtIn.table "<write-file><cat/></WRITE>".toList 12
    ⟨false, "cat".toList⟩ "read".toList :=
    ⟨rfl, by decide +kernel⟩
  refine ⟨alive, (dead_iff 12 _ _ at').mpr ⟨0, alive, encloses⟩, (done 4 (by decide)).trans ?_⟩
  decide +kernel

end SpellingTable

end MarkupActions
