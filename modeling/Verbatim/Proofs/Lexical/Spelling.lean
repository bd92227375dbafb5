import Verbatim.Proofs.Restarting

/-!
# A text for every sequence of kinds

Every kind that tokens have is spelled in some way. Words with a blank behind each of them are read
as they stand, so that every sequence of kinds is the sequence of kinds of a text.
-/

namespace Verbatim

namespace Kind

/-- A word of each kind that tokens have. -/
def word : Kind → List Char
  | lParen => ['(']
  | rParen => [')']
  | lBrace => ['\x7b']
  | rBrace => ['\x7d']
  | comma => [',']
  | colon => [':']
  | arrow => ['-', '>']
  | eq => ['=']
  | plus => ['+']
  | minus => ['-']
  | star => ['*']
  | slash => ['/']
  | funcKw => ['f', 'u', 'n', 'c']
  | letKw => ['l', 'e', 't']
  | returnKw => ['r', 'e', 't', 'u', 'r', 'n']
  | ident => ['x']
  | intNumber => ['1']
  | _ => ['?']

/-- Words of these kinds, with a blank behind each of them. -/
def spelled (kinds : List Kind) : List Char := kinds.flatMap fun kind => kind.word ++ [' ']

/-- Whether tokens with content may have a kind. -/
def isSolid (kind : Kind) : Bool := kind.isToken && kind != .eof

theorem spelled_cons (kind : Kind) (kinds : List Kind) :
    spelled (kind :: kinds) = kind.word ++ ' ' :: spelled kinds := by
  simp [spelled]

/-- A text of words is short if there are few of them. -/
theorem utf8ByteSize_spelled_le (kinds : List Kind) :
    (String.ofList (spelled kinds)).utf8ByteSize ≤ 7 * kinds.length := by
  rw [Text.utf8ByteSize_ofList]
  induction kinds with
  | nil => exact Nat.le_refl _
  | cons kind kinds ih =>
    have hword : Text.byteLength kind.word ≤ 6 := by cases kind <;> decide
    have hblank : Char.utf8Size ' ' = 1 := rfl
    rw [spelled_cons, Text.byteLength_append, Text.byteLength_cons, List.length_cons]
    omega

end Kind

namespace Lexer

open Lexical

theorem content?_word {kind : Kind} (h : kind.isSolid = true) (cs : List Char) :
    content? (kind.word ++ ' ' :: cs) = some (kind, kind.word, ' ' :: cs) := by
  cases kind with
  | lParen | rParen | lBrace | rBrace | comma | colon | arrow | eq | plus | minus | star | slash
  | funcKw | letKw | returnKw | ident | intNumber | unknown => rfl
  | _ => cases h

theorem noTrivia_word {kind : Kind} (lineEnds : Bool) (cs : List Char) :
    NoTrivia lineEnds (kind.word ++ ' ' :: cs) := by
  rw [← trivia?_eq_none_iff]
  cases kind <;> rfl

theorem noTrivia_spelled (lineEnds : Bool) (kinds : List Kind) :
    NoTrivia lineEnds (Kind.spelled kinds) := by
  cases kinds with
  | nil => exact trivia?_eq_none_iff.mp rfl
  | cons kind kinds =>
    rw [Kind.spelled_cons]
    exact noTrivia_word lineEnds _

/-- A word with a blank behind it is read as it stands. -/
theorem next_spelled {kind : Kind} (h : kind.isSolid = true) (kinds : List Kind) (offset : Nat) :
    ∃ t offset', next ⟨Kind.spelled (kind :: kinds), offset⟩ =
      (t, ⟨Kind.spelled kinds, offset'⟩) ∧ t.kind = kind := by
  have hstart : Trivia.StandAll [] [] (kind.word ++ ' ' :: Kind.spelled kinds) := trivial
  have hblank : Trivia.StandAll [] [⟨.whitespace, [' ']⟩] (Kind.spelled kinds) :=
    ⟨.blanks (List.cons_ne_nil _ _) (by simp; decide) nofun
      (fun c hc => ((noTrivia_spelled true kinds).2 c hc).1), trivial⟩
  have hleading : takeTrivia true (kind.word ++ ' ' :: Kind.spelled kinds) = _ :=
    takeTrivia_of_standAll hstart nofun (noTrivia_word true _)
  have htrailing : takeTrivia false (' ' :: Kind.spelled kinds) = _ :=
    takeTrivia_of_standAll hblank (by simp) (noTrivia_spelled false kinds)
  rw [Kind.spelled_cons]
  simp only [next, hleading, content?_word h, htrailing]
  exact ⟨_, _, rfl, rfl⟩

end Lexer

/-- The tokens of words with blanks between them have the kinds of the words. -/
theorem kind_tokenize_spelled {kinds : List Kind} (h : ∀ kind ∈ kinds, kind.isSolid = true) :
    (tokenize (String.ofList (Kind.spelled kinds))).tokens.map Token.kind = kinds := by
  have hdrain (offset : Nat) :
      (Lexer.drain ⟨Kind.spelled kinds, offset⟩).1.tokens.map Token.kind = kinds := by
    induction kinds generalizing offset with
    | nil =>
      have heof : (Lexer.next ⟨[], offset⟩).1.kind = .eof := by rw [Lexer.next_nil]
      change (Lexer.drain ⟨[], offset⟩).1.tokens.map Token.kind = []
      rw [Lexer.drain, dif_pos heof]
      rfl
    | cons kind kinds ih =>
      have hkind := h kind List.mem_cons_self
      obtain ⟨t, offset', hnext, rfl⟩ := Lexer.next_spelled hkind kinds offset
      have hne : t.kind ≠ .eof := fun heof => by
        rw [heof] at hkind
        cases hkind
      rw [Lexer.drain_of_next hnext hne, List.map_cons,
        ih (fun k hk => h k (List.mem_cons_of_mem _ hk))]
  rw [tokenize, Lexer.ofText, String.toList_ofList]
  exact hdrain 0

end Verbatim
