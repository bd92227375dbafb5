import Verbatim.Proofs.Lexing

/-!
# Pieces of trivia

What a piece of trivia is depends on what stands around it: blanks are taken together, a carriage
return may belong to a line feed, and a comment ends with its line. The lexer takes the pieces that
stand in a text, as far as there are any. A piece looks at the next character only, so it stays a
piece when the text is cut off behind it.
-/

namespace Verbatim

namespace Trivia

/-- A piece of trivia with the characters before it and those after it. -/
inductive Stands (before : List Char) : Trivia → List Char → Prop
  | lineFeed {after : List Char} : Stands before ⟨.newline, ['\n']⟩ after
  | crlf {after : List Char} : Stands before ⟨.newline, ['\r', '\n']⟩ after
  | carriageReturn {after : List Char} (h : after.head? ≠ some '\n') :
    Stands before ⟨.newline, ['\r']⟩ after
  /-- All the white space of a line that there is on either side. -/
  | blanks {text after : List Char} (hne : text ≠ []) (htext : ∀ c ∈ text, Text.isBlank c = true)
    (hbefore : ∀ c ∈ before.getLast?, Text.isBlank c = false)
    (hafter : ∀ c ∈ after.head?, Text.isBlank c = false) : Stands before ⟨.whitespace, text⟩ after
  /-- From two slashes to the end of the line, or to that of the text. -/
  | comment {body after : List Char} (hbody : ∀ c ∈ body, Text.isLineEnd c = false)
    (hafter : ∀ c ∈ after.head?, Text.isLineEnd c = true) :
    Stands before ⟨.comment, '/' :: '/' :: body⟩ after

/-- Pieces of trivia one after the other. -/
def StandAll : List Char → List Trivia → List Char → Prop
  | _, [], _ => True
  | before, t :: ts, after =>
    t.Stands before (chars ts ++ after) ∧ StandAll (before ++ t.text) ts after

end Trivia

namespace Lexical

/-- No blanks meet where the second text follows the first. -/
def Seam (before after : List Char) : Prop :=
  ∀ c ∈ before.getLast?, Text.isBlank c = true → ∀ d ∈ after.head?, Text.isBlank d = false

theorem seam_nil (cs : List Char) : Seam [] cs := by
  intro c hc
  cases hc

/-- Whether no trivia starts here, apart from line ends unless `lineEnds` says so. -/
def NoTrivia (lineEnds : Bool) (cs : List Char) : Prop :=
  ¬ ['/', '/'] <+: cs ∧
    ∀ c ∈ cs.head?, Text.isBlank c = false ∧ (lineEnds = true → Text.isLineEnd c = false)

end Lexical

namespace Lexer

open Lexical

/-- The lexer finds no trivia where none starts. -/
theorem trivia?_eq_none_iff {lineEnds : Bool} {cs : List Char} :
    trivia? lineEnds cs = none ↔ NoTrivia lineEnds cs := by
  unfold trivia? NoTrivia
  split
  · simp
  · simp
  · cases lineEnds <;> simp <;> decide
  · cases lineEnds <;> simp <;> decide
  · cases lineEnds <;> simp <;> decide
  · next c cs hslash hlf _ hcr =>
    have hcomment : ¬ ['/', '/'] <+: c :: cs := by
      rintro ⟨more, hmore⟩
      obtain ⟨rfl, rfl⟩ := List.cons.inj hmore
      exact hslash _ rfl rfl
    have hline : Text.isLineEnd c = false := by simpa [Text.isLineEnd] using ⟨hlf, hcr⟩
    cases hblank : Text.isBlank c <;> simp [hcomment, hline, hblank]

/-- What is left after all members of a class starts with something else. -/
theorem of_mem_head?_dropWhile {p : Char → Bool} {cs : List Char} {c : Char}
    (h : c ∈ (cs.dropWhile p).head?) : p c = false := by
  have hstop := List.head?_dropWhile_not p cs
  rwa [Option.mem_def.mp h] at hstop

/-- A piece that the lexer cuts off stands there, unless a blank stands before a blank. -/
theorem stands_of_trivia? {lineEnds : Bool} {before cs rest : List Char} {t : Trivia}
    (h : trivia? lineEnds cs = some (t, rest))
    (hseam : Seam before cs) : t.Stands before rest ∧
      (t.kind = .newline → lineEnds = true) := by
  unfold trivia? at h
  split at h
  · cases h
  · cases h
    refine ⟨.comment (fun c hc => ?_) fun c hc => ?_, nofun⟩
    · simpa using List.all_eq_true.mp List.all_takeWhile c hc
    · simpa using of_mem_head?_dropWhile hc
  · split at h <;> cases h
    exact ⟨.lineFeed, fun _ => ‹_›⟩
  · split at h <;> cases h
    exact ⟨.crlf, fun _ => ‹_›⟩
  · next cs hcrlf =>
    split at h <;> cases h
    refine ⟨.carriageReturn fun hlf => ?_, fun _ => ‹_›⟩
    obtain ⟨more, rfl⟩ := List.head?_eq_some_iff.mp hlf
    exact hcrlf more rfl
  · next c cs _ _ _ _ =>
    split at h
    · next hblank =>
      cases h
      refine ⟨.blanks (List.cons_ne_nil _ _) (fun d hd => ?_) (fun d hd => ?_)
        fun d hd => of_mem_head?_dropWhile hd, nofun⟩
      · rcases List.mem_cons.mp hd with rfl | hd
        · exact hblank
        · exact List.all_eq_true.mp List.all_takeWhile d hd
      · cases hd' : Text.isBlank d with
        | false => rfl
        | true => exact absurd hblank (by simp [hseam d hd hd' c rfl])
    · cases h

/-- A piece that stands somewhere is cut off there. -/
theorem trivia?_of_stands {lineEnds : Bool} {before after : List Char} {t : Trivia}
    (h : t.Stands before after) (hline : t.kind = .newline → lineEnds = true) :
    trivia? lineEnds (t.text ++ after) = some (t, after) := by
  have hspan {p : Char → Bool} {text after : List Char} (htext : ∀ c ∈ text, p c = true)
      (hafter : ∀ c ∈ after.head?, p c = false) :
      (text ++ after).takeWhile p = text ∧ (text ++ after).dropWhile p = after := by
    rw [List.takeWhile_append_of_pos htext, List.dropWhile_append_of_pos htext]
    cases after with
    | nil => simp
    | cons c after => simp [hafter c rfl]
  cases h with
  | lineFeed => simp [trivia?, hline rfl]
  | crlf => simp [trivia?, hline rfl]
  | carriageReturn hlf =>
    cases after with
    | nil => simp [trivia?, hline rfl]
    | cons c after =>
      have hne : c ≠ '\n' := fun hc => hlf (congrArg some hc)
      simp [trivia?, hline rfl, hne]
  | @comment body _ hbody hafter =>
    obtain ⟨htake, hdrop⟩ := @hspan (fun c => !Text.isLineEnd c) body after
      (by simpa using hbody) (by simpa using hafter)
    simp [trivia?, htake, hdrop]
  | @blanks text _ hne htext _ hafter =>
    obtain ⟨c, cs, rfl⟩ := List.exists_cons_of_ne_nil hne
    have hblank := htext c List.mem_cons_self
    obtain ⟨htake, hdrop⟩ := @hspan Text.isBlank cs after
      (fun d hd => htext d (List.mem_cons_of_mem _ hd)) hafter
    have hother {d : Char} (hd : Text.isBlank d = false) : c ≠ d := by
      rintro rfl
      exact Bool.false_ne_true (hd.symm.trans hblank)
    have hlast : trivia? lineEnds (c :: (cs ++ after)) = if Text.isBlank c then
        some (⟨.whitespace, c :: (cs ++ after).takeWhile Text.isBlank⟩,
          (cs ++ after).dropWhile Text.isBlank) else none :=
      trivia?.eq_6 lineEnds c (cs ++ after) (fun _ hc _ => hother (by decide) hc)
        (hother (by decide)) (fun _ hc _ => hother (by decide) hc) (hother (by decide))
    simp only [List.cons_append, hlast, hblank, if_true, htake, hdrop]

end Lexer

namespace Text

theorem isBlank_eq_false_of_isLineEnd {c : Char} (h : isLineEnd c = true) : isBlank c = false := by
  simp [isBlank, h]

end Text

namespace Trivia

open Lexical

variable {before after : List Char} {t : Trivia} {ts : List Trivia}

/-- No blanks meet behind a piece of trivia. -/
theorem Stands.seam (h : t.Stands before after) : Seam (before ++ t.text) after := by
  intro c hc hblank d hd
  have hlast {e : Char} (he : (before ++ t.text).getLast? = some e)
      (hline : Text.isLineEnd e = true) : False := by
    obtain rfl := Option.some.inj (he.symm.trans hc)
    rw [Text.isBlank_eq_false_of_isLineEnd hline] at hblank
    cases hblank
  cases h with
  | lineFeed => exact (hlast (by simp) (by decide : Text.isLineEnd '\n' = true)).elim
  | crlf => exact (hlast (by simp) (by decide : Text.isLineEnd '\n' = true)).elim
  | carriageReturn _ => exact (hlast (by simp) (by decide : Text.isLineEnd '\r' = true)).elim
  | blanks _ _ _ hafter => exact hafter d hd
  | comment _ hafter => exact Text.isBlank_eq_false_of_isLineEnd (hafter d hd)

/-- A text that was cut off starts with the same character, if it starts at all. -/
theorem mem_head?_of_shorter {cs ds : List Char} (h : cs <+: ds) {c : Char} (hc : c ∈ cs.head?) :
    c ∈ ds.head? := by
  obtain ⟨more, rfl⟩ := h
  obtain ⟨cs, rfl⟩ := List.head?_eq_some_iff.mp hc
  rfl

/-- A piece of trivia stays one when the text is cut off behind it. -/
theorem Stands.of_shorter {more : List Char} (h : t.Stands before more) (hafter : after <+: more) :
    t.Stands before after := by
  have hhead {c : Char} (hc : c ∈ after.head?) := mem_head?_of_shorter hafter hc
  cases h with
  | lineFeed => exact .lineFeed
  | crlf => exact .crlf
  | carriageReturn h => exact .carriageReturn fun hlf => h (hhead hlf)
  | blanks hne htext hbefore h => exact .blanks hne htext hbefore fun c hc => h c (hhead hc)
  | comment hbody h => exact .comment hbody fun c hc => h c (hhead hc)

theorem StandAll.of_shorter {more : List Char} (h : StandAll before ts more)
    (hafter : after <+: more) : StandAll before ts after := by
  induction ts generalizing before with
  | nil => trivial
  | cons t ts ih =>
    exact ⟨h.1.of_shorter ((List.prefix_append_right_inj _).mpr hafter), ih h.2⟩

end Trivia

namespace Lexical

/-- No trivia starts where none starts in a longer text. -/
theorem NoTrivia.of_shorter {lineEnds : Bool} {cs more : List Char} (h : NoTrivia lineEnds more)
    (hcs : cs <+: more) : NoTrivia lineEnds cs :=
  ⟨fun hslash => h.1 (hslash.trans hcs), fun c hc => h.2 c (Trivia.mem_head?_of_shorter hcs hc)⟩

end Lexical

namespace Lexer

open Lexical

/-- The trivia that the lexer takes stands there, and nothing more does. -/
theorem standAll_takeTrivia {lineEnds : Bool} {before cs : List Char} (hseam : Seam before cs) :
    Trivia.StandAll before (takeTrivia lineEnds cs).1 (takeTrivia lineEnds cs).2 ∧
      (∀ t ∈ (takeTrivia lineEnds cs).1, t.kind = .newline → lineEnds = true) ∧
      NoTrivia lineEnds (takeTrivia lineEnds cs).2 ∧
      Seam (before ++ Trivia.chars (takeTrivia lineEnds cs).1) (takeTrivia lineEnds cs).2 := by
  fun_induction takeTrivia lineEnds cs generalizing before with
  | case1 cs h =>
    exact ⟨trivial, fun t ht => absurd ht List.not_mem_nil, trivia?_eq_none_iff.mp h,
      by simpa [Trivia.chars] using hseam⟩
  | case2 cs t rest h _ ts last he ih =>
    obtain ⟨hstands, hline⟩ := stands_of_trivia? h hseam
    have hrest : Trivia.chars ts ++ last = rest := by
      have hchars := chars_takeTrivia lineEnds rest
      rwa [he] at hchars
    obtain ⟨hall, hlines, hnone, hlast⟩ := ih hstands.seam
    rw [he] at hall hlines hnone hlast
    refine ⟨⟨by rwa [hrest], hall⟩, fun u hu => ?_, hnone, by simpa [Trivia.chars] using hlast⟩
    rcases List.mem_cons.mp hu with rfl | hu
    · exact hline
    · exact hlines u hu

/-- The lexer takes the trivia that stands somewhere, up to where none starts. -/
theorem takeTrivia_of_standAll {lineEnds : Bool} {before after : List Char} {ts : List Trivia}
    (h : Trivia.StandAll before ts after) (hline : ∀ t ∈ ts, t.kind = .newline → lineEnds = true)
    (hafter : NoTrivia lineEnds after) :
    takeTrivia lineEnds (Trivia.chars ts ++ after) = (ts, after) := by
  induction ts generalizing before with
  | nil =>
    unfold takeTrivia
    split
    · rfl
    · next hsome =>
      rw [Trivia.chars, List.flatMap_nil, List.nil_append, trivia?_eq_none_iff.mpr hafter] at hsome
      cases hsome
  | cons t ts ih =>
    have hread := trivia?_of_stands h.1 (hline t List.mem_cons_self)
    have hrest := ih h.2 fun u hu => hline u (List.mem_cons_of_mem _ hu)
    have hchars : Trivia.chars (t :: ts) ++ after = t.text ++ (Trivia.chars ts ++ after) := by
      simp [Trivia.chars]
    rw [hchars]
    unfold takeTrivia
    split
    · next hnone => 
      rw [hread] at hnone
      cases hnone
    · next u rest hsome =>
      rw [hread] at hsome
      cases hsome
      rw [hrest]

end Lexer

end Verbatim
