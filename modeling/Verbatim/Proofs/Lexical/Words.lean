import Verbatim.Proofs.Lexing

/-!
# Words

The words of each kind, said without the lexer. Every word has one kind, so there is one longest
word at the front of a text, and that is what the lexer takes for content. What comes after a word
matters only as far as it could make the word longer.
-/

namespace Verbatim

namespace Lexical

/-- The characters that a name can start with. -/
def IsLetter (c : Char) : Prop := ('A' ≤ c ∧ c ≤ 'Z') ∨ ('a' ≤ c ∧ c ≤ 'z') ∨ c = '_'

/-- The decimal digits. -/
def IsDigit (c : Char) : Prop := '0' ≤ c ∧ c ≤ '9'

/-- Keywords and punctuation: a word that is the only spelling of its kind. -/
def IsFixed (kind : Kind) (word : List Char) : Prop :=
  ∃ text, kind.fixedText? = some text ∧ text.toList = word

/-- The words of each kind. -/
inductive Lexeme : Kind → List Char → Prop
  | fixed {kind : Kind} {word : List Char} (h : IsFixed kind word) : Lexeme kind word
  /-- A name is letters and digits, with a letter in front, and not a keyword. -/
  | name {c : Char} {cs : List Char} (hc : IsLetter c) (hcs : ∀ d ∈ cs, IsLetter d ∨ IsDigit d)
    (hfixed : ∀ kind, ¬ IsFixed kind (c :: cs)) : Lexeme .ident (c :: cs)
  /-- A number is digits and underscores, with a digit in front. -/
  | number {c : Char} {cs : List Char} (hc : IsDigit c) (hcs : ∀ d ∈ cs, IsDigit d ∨ d = '_') :
    Lexeme .intNumber (c :: cs)
  /-- Any other character is a word by itself. -/
  | unknown {c : Char} (hletter : ¬ IsLetter c) (hdigit : ¬ IsDigit c)
    (hfixed : ∀ kind, ¬ IsFixed kind [c]) : Lexeme .unknown [c]

/-- A word of some kind at the front of some characters, such that no longer one is there. -/
structure Longest (kind : Kind) (word cs : List Char) : Prop where
  lexeme : Lexeme kind word
  isPrefix : word <+: cs
  longest : ∀ kind' word', Lexeme kind' word' → word' <+: cs → word'.length ≤ word.length

theorem isNameStart_iff {c : Char} : Lexer.isNameStart c = true ↔ IsLetter c := by
  have halpha : c.isAlpha = (decide ('A'.val ≤ c.val ∧ c.val ≤ 'Z'.val) ||
      (decide ('a'.val ≤ c.val) && decide (c.val ≤ 'z'.val))) := rfl
  simp [Lexer.isNameStart, IsLetter, halpha, Char.le_def, or_assoc]

theorem isDigit_iff {c : Char} : c.isDigit = true ↔ IsDigit c := by
  simp [IsDigit, Char.isDigit, Char.le_def]

instance : DecidablePred IsLetter := fun _ => decidable_of_decidable_of_iff isNameStart_iff

instance : DecidablePred IsDigit := fun _ => decidable_of_decidable_of_iff isDigit_iff

theorem isNamePart_iff {c : Char} : Lexer.isNamePart c = true ↔ IsLetter c ∨ IsDigit c := by
  rw [← isNameStart_iff, ← isDigit_iff]
  simp [Lexer.isNamePart, Lexer.isNameStart, Char.isAlphanum, or_right_comm]

theorem isNumberPart_iff {c : Char} : Lexer.isNumberPart c = true ↔ IsDigit c ∨ c = '_' := by
  rw [← isDigit_iff]
  simp [Lexer.isNumberPart]

theorem IsDigit.not_isLetter {c : Char} (h : IsDigit c) : ¬ IsLetter c := by
  simp only [IsDigit, IsLetter, Char.le_def, UInt32.le_iff_toNat_le] at *
  rintro (h' | h' | rfl)
  · have : ('9' : Char).val.toNat < ('A' : Char).val.toNat := by decide
    omega
  · have : ('9' : Char).val.toNat < ('a' : Char).val.toNat := by decide
    omega
  · revert h
    decide

/-- The words that are spelled in one way, with their kinds. -/
def fixedWords : List (Kind × List Char) :=
  [(.lParen, ['(']), (.rParen, [')']), (.lBrace, ['\x7b']), (.rBrace, ['\x7d']), (.comma, [',']),
    (.colon, [':']), (.arrow, ['-', '>']), (.eq, ['=']), (.plus, ['+']), (.minus, ['-']),
    (.star, ['*']), (.slash, ['/']), (.funcKw, ['f', 'u', 'n', 'c']), (.letKw, ['l', 'e', 't']),
    (.returnKw, ['r', 'e', 't', 'u', 'r', 'n'])]

theorem isFixed_iff {kind : Kind} {word : List Char} :
    IsFixed kind word ↔ (kind, word) ∈ fixedWords := by
  constructor
  · rintro ⟨text, htext, rfl⟩
    cases kind <;> cases htext <;> decide
  · simp only [fixedWords, List.mem_cons, List.not_mem_nil, or_false, Prod.mk.injEq]
    rintro (h | h | h | h | h | h | h | h | h | h | h | h | h | h | h) <;>
      obtain ⟨rfl, rfl⟩ := h <;> exact ⟨_, rfl, rfl⟩

section Lexeme

variable {kind kind' : Kind} {word cs rest : List Char}

/-- What can follow the first character of a word. -/
theorem Lexeme.shape {c : Char} (h : Lexeme kind (c :: cs)) :
    (IsLetter c ∧ ∀ d ∈ cs, IsLetter d ∨ IsDigit d) ∨ (IsDigit c ∧ ∀ d ∈ cs, IsDigit d ∨ d = '_') ∨
      (c = '-' ∧ cs = ['>']) ∨ cs = [] := by
  -- punctuation is one character or an arrow, and keywords are letters
  have htable : ∀ x ∈ fixedWords,
      x.2.all Lexer.isNameStart = true ∨ x.2 = ['-', '>'] ∨ x.2.length = 1 := by
    decide
  generalize hword : c :: cs = word at h
  cases h with
  | fixed h =>
    subst hword
    rcases htable _ (isFixed_iff.mp h) with hletters | harrow | hone
    · obtain ⟨hc, hcs⟩ : IsLetter c ∧ ∀ d ∈ cs, IsLetter d := by
        simpa [isNameStart_iff] using hletters
      exact .inl ⟨hc, fun d hd => .inl (hcs d hd)⟩
    · cases harrow
      exact .inr (.inr (.inl ⟨rfl, rfl⟩))
    · exact .inr (.inr (.inr (List.length_eq_zero_iff.mp (Nat.succ.inj hone))))
  | name hc hcs _ =>
    cases hword
    exact .inl ⟨hc, hcs⟩
  | number hc hcs =>
    cases hword
    exact .inr (.inl ⟨hc, hcs⟩)
  | unknown _ _ _ =>
    cases hword
    exact .inr (.inr (.inr rfl))

/-- No word is empty. -/
theorem Lexeme.ne_nil (h : Lexeme kind word) : word ≠ [] := by
  have htable : ∀ x ∈ fixedWords, x.2 ≠ [] := by decide
  cases h with
  | fixed h => exact htable _ (isFixed_iff.mp h)
  | _ => exact List.cons_ne_nil _ _

theorem IsFixed.not_isDigit {c : Char} (h : IsFixed kind (c :: cs)) : ¬ IsDigit c := by
  have htable : ∀ x ∈ fixedWords, x.2.any Char.isDigit = false := by decide
  have hword := htable _ (isFixed_iff.mp h)
  rw [List.any_cons, Bool.or_eq_false_iff] at hword
  rw [← isDigit_iff, hword.1]
  exact Bool.false_ne_true

/-- A kind that is spelled in one way has no other words. -/
theorem Lexeme.eq_of_fixedText? (h : Lexeme kind word) {text : String}
    (htext : kind.fixedText? = some text) : word = text.toList := by
  cases h with
  | fixed h =>
    obtain ⟨text', htext', rfl⟩ := h
    rw [Option.some.inj (htext.symm.trans htext')]
  | name _ _ _ | number _ _ | unknown _ _ _ => cases htext

/-- A word is a word of one kind only. -/
theorem Lexeme.kind_unique (h : Lexeme kind word) (h' : Lexeme kind' word) : kind = kind' := by
  have htable : ∀ x ∈ fixedWords, ∀ y ∈ fixedWords, x.2 = y.2 → x.1 = y.1 := by decide
  cases h with
  | fixed h =>
    cases h' with
    | fixed h' => exact htable _ (isFixed_iff.mp h) _ (isFixed_iff.mp h') rfl
    | name _ _ hfixed => exact absurd h (hfixed _)
    | number hc _ => exact absurd hc h.not_isDigit
    | unknown _ _ hfixed => exact absurd h (hfixed _)
  | name hc _ hfixed =>
    cases h' with
    | fixed h' => exact absurd h' (hfixed _)
    | name _ _ _ => rfl
    | number hc' _ => exact absurd hc hc'.not_isLetter
    | unknown hletter _ _ => exact absurd hc hletter
  | number hc _ =>
    cases h' with
    | fixed h' => exact absurd hc h'.not_isDigit
    | name hc' _ _ => exact absurd hc' hc.not_isLetter
    | number _ _ => rfl
    | unknown _ hdigit _ => exact absurd hc hdigit
  | unknown hletter hdigit hfixed =>
    cases h' with
    | fixed h' => exact absurd h' (hfixed _)
    | name hc _ _ => exact absurd hc hletter
    | number hc _ => exact absurd hc hdigit
    | unknown _ _ _ => rfl

/-- There is only one longest word. -/
theorem Longest.unique {word' : List Char} (h : Longest kind word cs)
    (h' : Longest kind' word' cs) : kind = kind' ∧ word = word' := by
  have hlength : word.length = word'.length :=
    Nat.le_antisymm (h'.longest _ _ h.lexeme h.isPrefix) (h.longest _ _ h'.lexeme h'.isPrefix)
  obtain rfl : word = word' :=
    (List.prefix_of_prefix_length_le h.isPrefix h'.isPrefix (Nat.le_of_eq hlength)).eq_of_length
      hlength
  exact ⟨h.lexeme.kind_unique h'.lexeme, rfl⟩

/-- The longest word stays the longest one when the text is cut off behind it. -/
theorem Longest.of_shorter {after more : List Char} (h : Longest kind word (word ++ more))
    (hafter : after <+: more) : Longest kind word (word ++ after) where
  lexeme := h.lexeme
  isPrefix := List.prefix_append _ _
  longest kind' word' hword' hfront :=
    h.longest kind' word' hword' (hfront.trans ((List.prefix_append_right_inj word).mpr hafter))

/-- Members of a class at the front of a text are among the first that are taken. -/
theorem length_le_takeWhile {p : Char → Bool} {ds cs : List Char} (hfront : ds <+: cs)
    (hds : ∀ d ∈ ds, p d = true) : ds.length ≤ (cs.takeWhile p).length := by
  obtain ⟨rest, rfl⟩ := hfront
  rw [List.takeWhile_append_of_pos hds, List.length_append]
  exact Nat.le_add_right _ _

/-- A word is the longest one if no other word with the same first character is longer. -/
theorem longest_of_shape {c : Char} {ds : List Char} (h : Lexeme kind (c :: ds)) (hds : ds <+: cs)
    (hshape : ∀ more, more <+: cs →
      (IsLetter c ∧ ∀ d ∈ more, IsLetter d ∨ IsDigit d) ∨
        (IsDigit c ∧ ∀ d ∈ more, IsDigit d ∨ d = '_') ∨ (c = '-' ∧ more = ['>']) ∨ more = [] →
      more.length ≤ ds.length) : Longest kind (c :: ds) (c :: cs) := by
  refine ⟨h, List.cons_prefix_cons.mpr ⟨rfl, hds⟩, fun kind' word' hword' hfront => ?_⟩
  obtain ⟨d, more, rfl⟩ := List.exists_cons_of_ne_nil hword'.ne_nil
  obtain ⟨rfl, hmore⟩ := List.cons_prefix_cons.mp hfront
  exact Nat.succ_le_succ (hshape more hmore hword'.shape)

end Lexeme

end Lexical

namespace Lexer

open Lexical

variable {kind : Kind} {word cs rest : List Char}

/-- The word that a letter starts is a keyword or a name. -/
theorem lexeme_wordKind {c : Char} (hc : IsLetter c) (hcs : ∀ d ∈ cs, IsLetter d ∨ IsDigit d) :
    Lexeme (wordKind (c :: cs)) (c :: cs) := by
  have htable : ∀ x ∈ fixedWords, x.2.head?.any isNameStart = true →
      x.2 = ['f', 'u', 'n', 'c'] ∨ x.2 = ['l', 'e', 't'] ∨
        x.2 = ['r', 'e', 't', 'u', 'r', 'n'] := by
    decide
  unfold wordKind
  split
  · next h => exact .fixed (isFixed_iff.mpr (by rw [h]; decide))
  · split
    · next h => exact .fixed (isFixed_iff.mpr (by rw [h]; decide))
    · split
      · next h => exact .fixed (isFixed_iff.mpr (by rw [h]; decide))
      · next hfunc hlet hreturn =>
        refine .name hc hcs fun kind hfixed => ?_
        have hstart : (c :: cs).head?.any isNameStart = true := isNameStart_iff.mpr hc
        rcases htable _ (isFixed_iff.mp hfixed) hstart with h | h | h
        · exact hfunc h
        · exact hlet h
        · exact hreturn h

/-- A character that starts no longer word is punctuation or unknown. -/
theorem lexeme_characterKind {c : Char} (hletter : ¬ IsLetter c) (hdigit : ¬ IsDigit c) :
    Lexeme (characterKind c) [c] := by
  unfold characterKind
  split
  case h_12 =>
    refine .unknown hletter hdigit fun kind hfixed => ?_
    have hmem := isFixed_iff.mp hfixed
    simp only [fixedWords, List.mem_cons, List.not_mem_nil, or_false, Prod.mk.injEq,
      List.cons.injEq] at hmem
    simp_all
  all_goals exact .fixed (isFixed_iff.mpr (by decide))

/-- What the lexer takes for content is the longest word. -/
theorem longest_of_content? (h : content? cs = some (kind, word, rest)) : Longest kind word cs := by
  unfold content? at h
  split at h
  · cases h
  · cases h
    refine longest_of_shape (.fixed (isFixed_iff.mpr (by decide)))
      (List.prefix_append ['>'] rest) fun more _ hshape => ?_
    rcases hshape with ⟨hc, -⟩ | ⟨hc, -⟩ | ⟨-, rfl⟩ | rfl
    · exact absurd hc (by decide)
    · exact absurd hc (by decide)
    · exact Nat.le_refl 1
    · exact Nat.zero_le 1
  · next c cs harrow =>
    split at h
    · next hdigit =>
      cases h
      have hdigit := isDigit_iff.mp hdigit
      refine longest_of_shape (.number hdigit fun d hd => ?_) (List.takeWhile_prefix _)
        fun more hmore hshape => ?_
      · exact isNumberPart_iff.mp (List.all_eq_true.mp List.all_takeWhile d hd)
      · rcases hshape with ⟨hc, -⟩ | ⟨-, hparts⟩ | ⟨rfl, -⟩ | rfl
        · exact absurd hc hdigit.not_isLetter
        · exact length_le_takeWhile hmore fun d hd => isNumberPart_iff.mpr (hparts d hd)
        · exact absurd hdigit (by decide)
        · exact Nat.zero_le _
    · next hdigit =>
      have hdigit := mt isDigit_iff.mpr hdigit
      split at h
      · next hletter =>
        cases h
        have hletter := isNameStart_iff.mp hletter
        refine longest_of_shape (lexeme_wordKind hletter fun d hd => ?_) (List.takeWhile_prefix _)
          fun more hmore hshape => ?_
        · exact isNamePart_iff.mp (List.all_eq_true.mp List.all_takeWhile d hd)
        · rcases hshape with ⟨-, hparts⟩ | ⟨hc, -⟩ | ⟨rfl, -⟩ | rfl
          · exact length_le_takeWhile hmore fun d hd => isNamePart_iff.mpr (hparts d hd)
          · exact absurd hc hdigit
          · exact absurd hletter (by decide)
          · exact Nat.zero_le _
      · next hletter =>
        cases h
        have hletter := mt isNameStart_iff.mpr hletter
        refine longest_of_shape (lexeme_characterKind hletter hdigit) List.nil_prefix
          fun more hmore hshape => ?_
        rcases hshape with ⟨hc, -⟩ | ⟨hc, -⟩ | ⟨rfl, rfl⟩ | rfl
        · exact absurd hc hletter
        · exact absurd hc hdigit
        · obtain ⟨more, rfl⟩ := hmore
          exact absurd rfl (harrow _ rfl)
        · exact Nat.le_refl 0

/-- The lexer takes the longest word for content. -/
theorem content?_of_longest (h : Longest kind word (word ++ rest)) :
    content? (word ++ rest) = some (kind, word, rest) := by
  cases hread : content? (word ++ rest) with
  | none =>
    have hnil := content?_eq_none hread
    exact absurd (List.append_eq_nil_iff.mp hnil).1 h.lexeme.ne_nil
  | some found =>
    obtain ⟨kind', word', rest'⟩ := found
    obtain ⟨rfl, rfl⟩ := h.unique (longest_of_content? hread)
    rw [List.append_cancel_left (content?_eq_some hread).1]

end Lexer

end Verbatim
