import Verbatim.Sum

/-!
# Cutting a text at byte offsets

Offsets count bytes, so a cut may fall inside a character. Such a cut has no result. A cut that
succeeds loses nothing, and its first part has exactly the requested number of bytes.
-/

namespace Verbatim.Text

/-- Number of bytes of a list of characters in UTF-8. -/
def byteLength (cs : List Char) : Nat := sumOf Char.utf8Size cs

@[simp] theorem byteLength_nil : byteLength [] = 0 := rfl

@[simp] theorem byteLength_cons (c : Char) (cs : List Char) :
    byteLength (c :: cs) = c.utf8Size + byteLength cs := rfl

@[simp] theorem byteLength_append (cs ds : List Char) :
    byteLength (cs ++ ds) = byteLength cs + byteLength ds := by
  simp [byteLength]

/-- A text made of characters is as many bytes long as they are. -/
theorem utf8ByteSize_ofList (cs : List Char) : (String.ofList cs).utf8ByteSize = byteLength cs := by
  induction cs with
  | nil => rfl
  | cons c cs ih =>
    rw [← List.singleton_append, String.ofList_append, String.utf8ByteSize_append, ih]
    simp [byteLength]

/-- The characters of a text are as many bytes long as the text. -/
theorem byteLength_toList (s : String) : byteLength s.toList = s.utf8ByteSize := by
  rw [← utf8ByteSize_ofList, String.ofList_toList]

/-- Splits after exactly `n` bytes, unless that cuts a character or passes the end. -/
def splitBytes? : Nat → List Char → Option (List Char × List Char)
  | 0, cs => some ([], cs)
  | _ + 1, [] => none
  | n + 1, c :: cs =>
    if c.utf8Size ≤ n + 1 then
      (splitBytes? (n + 1 - c.utf8Size) cs).map fun (before, after) => (c :: before, after)
    else none

/-- A cut loses nothing and measures its first part exactly. -/
theorem splitBytes?_eq_some {n : Nat} {cs before after : List Char}
    (h : splitBytes? n cs = some (before, after)) :
    before ++ after = cs ∧ byteLength before = n := by
  fun_induction splitBytes? n cs generalizing before after with
  | case1 cs => simp_all
  | case2 n => simp at h
  | case3 n c cs hc ih =>
    obtain ⟨⟨b, a⟩, hb, he⟩ := Option.map_eq_some_iff.mp h
    obtain ⟨happ, hlen⟩ := ih hb
    simp only [Prod.mk.injEq] at he
    obtain ⟨rfl, rfl⟩ := he
    constructor
    · simp [happ]
    · simp only [byteLength_cons, hlen]
      omega
  | case4 n c cs hc => simp at h

/-- Every cut between two parts of a text succeeds. -/
theorem splitBytes?_byteLength (before after : List Char) :
    splitBytes? (byteLength before) (before ++ after) = some (before, after) := by
  induction before with
  | nil => cases after <;> rfl
  | cons c cs ih =>
    obtain ⟨n, hn⟩ : ∃ n, c.utf8Size + byteLength cs = n + 1 :=
      ⟨c.utf8Size + byteLength cs - 1, by have := c.utf8Size_pos; omega⟩
    have hsub : n + 1 - c.utf8Size = byteLength cs := by omega
    have hle : c.utf8Size ≤ n + 1 := by omega
    simp only [byteLength_cons, hn, List.cons_append, splitBytes?, hle, if_true, hsub, ih,
      Option.map_some]

/-- The bytes from `start` to `stop`, when both lie between two characters of the text. -/
def slice? (text : String) (start stop : Nat) : Option String := do
  let (_, rest) ← splitBytes? start text.toList
  let (part, _) ← splitBytes? (stop - start) rest
  return String.ofList part

end Verbatim.Text
