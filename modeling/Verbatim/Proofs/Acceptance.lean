import Verbatim.Proofs.Acceptance.Completeness
import Verbatim.Proofs.Parsing

/-!
# What is accepted

The tree of a text has no error exactly if the kinds of its tokens form a word of the grammar and no
nesting level was refused while it was read. In particular the nesting limit is never met without
leaving an error in the tree.
-/

namespace Verbatim

namespace Green.Parsed

variable {g : Green} {text : String} {items : List Sketch} {n : Nesting}

/-- The tree of a text has an error if one of its items has. -/
theorem hasError_eq (h : g.Parsed text items n) : g.hasError = Sketch.anyError items := by
  have herror : g.hasError = (Sketch.file items (tokenize text).eof).hasError :=
    h.built.hasError_eq
  rw [herror, Sketch.file, Sketch.hasError, Sketch.anyError, Sketch.hasError, Sketch.anyError,
    Sketch.hasError, Sketch.anyError, Bool.or_false, Bool.or_false]
  rfl

/-- A tree without errors comes from a word, and no level was refused. -/
theorem word_of_hasError_eq_false (h : g.Parsed text items n) (hclean : g.hasError = false) :
    n.refusals = 0 ∧ Word .items ((tokenize text).tokens.map Token.kind) := by
  rw [h.hasError_eq] at hclean
  obtain ⟨w, hw, hspells, hkeeps⟩ := h.reads.covers rfl hclean rfl
  have hkinds : (tokenize text).tokens.map Token.kind = w := hw.trans (List.append_nil w)
  exact ⟨(hkeeps.steady rfl).2, hkinds ▸ hspells⟩

/-- A word gives a tree without errors if no level is refused. -/
theorem hasError_eq_false_of_word (h : g.Parsed text items n) (hn : n.refusals = 0)
    (hw : Word .items ((tokenize text).tokens.map Token.kind)) : g.hasError = false := by
  have hready : (Goal.phrase .items).Ready (fun _ => True)
      (⟨(tokenize text).tokens, {}⟩ : Reader).kinds := ⟨hw, trivial⟩
  rw [h.hasError_eq]
  exact (h.reads.tidy hready rfl hn rfl).1

end Green.Parsed

/-- The tokens of a text form a file if those with content form items. -/
theorem word_file_iff (text : String) :
    Word .file ((tokenize text).toList.map Token.kind) ↔
      Word .items ((tokenize text).tokens.map Token.kind) := by
  have hkinds : (tokenize text).toList.map Token.kind =
      (tokenize text).tokens.map Token.kind ++ [.eof] := by
    rw [TokenStream.toList, List.map_append, List.map_singleton, (final_tokenize text).eq_eof]
  rw [hkinds]
  constructor
  · intro h
    generalize hfile : (tokenize text).tokens.map Token.kind ++ [.eof] = file at h
    cases h with
    | file hw => exact (List.append_cancel_right hfile) ▸ hw
  · exact .file

/-- Whenever a tree comes out of the parse of a text, it has no error exactly if no nesting level
was refused and the kinds of the tokens form a file of the grammar, so meeting the nesting limit
leaves an error in it. For every text of less than 2^28 bytes a tree comes out. -/
theorem parse_hasError_eq_false_iff {st : Store} (hst : st.Coherent) (text : String) :
    (text.utf8ByteSize < 1 <<< 28 → ∃ v st', parse text st = (.ok v, st')) ∧
      ∀ v st', parse text st = (.ok v, st') → ∃ y, (tokenize text).parsed = .ok y ∧
        (v.hasError = false ↔
          y.nesting.refusals = 0 ∧ Word .file ((tokenize text).toList.map Token.kind)) ∧
        (y.nesting.refusals ≠ 0 → v.hasError = true) := by
  refine ⟨exists_parse_eq_ok hst, fun v st' hparse => ?_⟩
  obtain ⟨-, g, items, y, rfl, hparsed, hg⟩ := exists_of_parse_eq_ok hst hparse
  have hiff : g.hasError = false ↔
      y.nesting.refusals = 0 ∧ Word .file ((tokenize text).toList.map Token.kind) := by
    rw [word_file_iff]
    constructor
    · exact hg.word_of_hasError_eq_false
    · rintro ⟨hn, hw⟩
      exact hg.hasError_eq_false_of_word hn hw
  refine ⟨y, hparsed, hiff, fun hrefused => ?_⟩
  cases herror : g.hasError with
  | true => exact herror
  | false => exact absurd (hiff.mp herror).1 hrefused

/-- Three statements, each of which could go on with the next one, are accepted as one. -/
theorem parse_hasError_eq_false_iff_merged :
    ({ tag := 0 } : Store).Coherent ∧
      Word .file ((tokenize "func f() \x7b g (1) - x \x7d").toList.map Token.kind) ∧
      ∃ v st', parse "func f() \x7b g (1) - x \x7d" { tag := 0 } = (.ok v, st') ∧
        v.hasError = false := by
  have hst : ({ tag := 0 } : Store).Coherent := Store.coherent_empty 0 {}
  have hkinds : (tokenize "func f() \x7b g (1) - x \x7d").toList.map Token.kind =
      [.funcKw, .ident, .lParen, .rParen, .lBrace, .ident, .lParen, .intNumber, .rParen, .minus,
        .ident, .rBrace, .eof] := by
    decide +kernel
  have hstmts : Word .stmts [.ident, .lParen, .intNumber, .rParen, .minus, .ident] :=
    .moreStmts (.exprStmt .name) (.moreStmts (.exprStmt (.paren .number))
      (.moreStmts (.exprStmt (.negated .name)) .noStmts))
  have hword : Word .file ((tokenize "func f() \x7b g (1) - x \x7d").toList.map Token.kind) :=
    hkinds ▸ .file (.funcItem (.func .noParams .noType (.block hstmts)) .noItems)
  have hrefusals : ((tokenize "func f() \x7b g (1) - x \x7d").parsed.map
      fun y => y.nesting.refusals).toOption = some 0 := by
    decide +kernel
  obtain ⟨htotal, hiff⟩ := parse_hasError_eq_false_iff hst "func f() \x7b g (1) - x \x7d"
  obtain ⟨v, st', hparse⟩ := htotal (by decide)
  obtain ⟨y, hparsed, hv, -⟩ := hiff v st' hparse
  rw [hparsed] at hrefusals
  exact ⟨hst, hword, v, st', hparse, hv.mpr ⟨Option.some.inj hrefusals, hword⟩⟩

end Verbatim
