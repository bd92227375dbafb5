import Verbatim.Proofs.Locating
import Verbatim.Proofs.Reporting

/-!
# Where texts can be cut

The trivia of a token is measured in bytes, so it need not end between two characters. If it does in
every token of a tree, then each token can be cut, and so can the text of each node: from the
content of its first token that has any to the content of its last.
-/

namespace Verbatim

/-- A filter whose tests all succeed keeps some of a list, in its order. -/
theorem exists_filterM_eq_ok {ε α : Type} {test : α → Except ε Bool} {l : List α}
    (h : ∀ a ∈ l, ∃ b, test a = .ok b) : ∃ kept, l.filterM test = .ok kept ∧ kept.Sublist l := by
  refine ⟨l.filter fun a => (test a).toOption.getD false, filterM_eq_ok fun a ha => ?_,
    List.filter_sublist⟩
  obtain ⟨b, hb⟩ := h a ha
  rw [hb]
  rfl

namespace Text

variable {cs : List Char} {n : Nat}

/-- Whether an offset lies between two characters. -/
def isBoundary (cs : List Char) (n : Nat) : Bool := (splitBytes? n cs).isSome

/-- A place is a boundary if the text can be split there between characters. -/
theorem isBoundary_iff :
    isBoundary cs n = true ↔ ∃ before after, cs = before ++ after ∧ byteLength before = n := by
  rw [isBoundary, Option.isSome_iff_exists]
  constructor
  · rintro ⟨⟨before, after⟩, hsplit⟩
    obtain ⟨happend, hlength⟩ := splitBytes?_eq_some hsplit
    exact ⟨before, after, happend.symm, hlength⟩
  · rintro ⟨before, after, rfl, rfl⟩
    exact ⟨_, splitBytes?_byteLength before after⟩

/-- An offset between two characters stays one when text is put around. -/
theorem isBoundary_append (before after : List Char) (h : isBoundary cs n = true) :
    isBoundary (before ++ (cs ++ after)) (byteLength before + n) = true := by
  obtain ⟨front, back, rfl, rfl⟩ := isBoundary_iff.mp h
  exact isBoundary_iff.mpr ⟨before ++ front, back ++ after, by simp, byteLength_append ..⟩

theorem eq_nil_of_byteLength (h : byteLength cs = 0) : cs = [] := by
  cases cs with
  | nil => rfl
  | cons c cs =>
    have hpos := c.utf8Size_pos
    rw [byteLength_cons] at h
    omega

/-- A text can be cut at two offsets that lie between characters. -/
theorem exists_slice? {text : String} {start stop : Nat}
    (hstart : isBoundary text.toList start = true) (hstop : isBoundary text.toList stop = true)
    (hle : start ≤ stop) : ∃ part, slice? text start stop = some part := by
  obtain ⟨x, rest, hx, rfl⟩ := isBoundary_iff.mp hstart
  obtain ⟨y, after, hy, rfl⟩ := isBoundary_iff.mp hstop
  obtain ⟨z, rfl⟩ : ∃ z, y = x ++ z := by
    rcases List.append_eq_append_iff.mp (hx.symm.trans hy) with ⟨z, hz, -⟩ | ⟨z, rfl, -⟩
    · exact ⟨z, hz⟩
    · rw [byteLength_append] at hle
      have hz : byteLength z = 0 := by omega
      obtain rfl := eq_nil_of_byteLength hz
      exact ⟨[], by simp⟩
  rw [List.append_assoc] at hy
  rw [byteLength_append]
  exact ⟨_, slice?_append hy⟩

end Text

namespace TokenData

variable {d : TokenData}

/-- Whether the trivia of a token ends and begins between characters. -/
def isAligned (d : TokenData) : Bool :=
  Text.isBoundary d.text.toList d.leadingWidth &&
    Text.isBoundary d.text.toList (d.width - d.trailingWidth)

/-- The content of a token whose trivia is aligned can be cut out. -/
theorem exists_trimmedText (hcheck : d.check = .ok ()) (h : d.isAligned = true) :
    ∃ text, d.trimmedText = .ok text := by
  obtain ⟨hstart, hstop⟩ := Bool.and_eq_true_iff.mp h
  have hle := (check_eq_ok_iff.mp hcheck).1
  obtain ⟨part, hpart⟩ := Text.exists_slice? hstart hstop (by omega)
  exact ⟨part, by rw [trimmedText, cut, hpart]⟩

end TokenData

namespace Green

/-- Whether the trivia of every token of a tree ends and begins between characters. -/
def Aligned (g : Green) : Prop := ∀ t : GreenToken, (token t).Within g → t.data.isAligned = true

/-- Whether a tree is aligned can be decided by its elements. -/
theorem aligned_of_parts {g : Green}
    (h : (Scene.parts g).all (fun x => x.token?.all (·.data.isAligned)) = true) : g.Aligned :=
  fun _ ht => Scene.of_within h ht

theorem Genuine.check {t : GreenToken} (h : (Green.token t).Genuine) : t.data.check = .ok () := by
  cases h with
  | token hcheck => exact hcheck

/-- Everything within an aligned element is aligned. -/
theorem Aligned.of_within {g x : Green} (h : g.Aligned) (hx : x.Within g) : x.Aligned :=
  fun t ht => h t (ht.trans hx)

end Green

namespace View

variable {v t : View}

/-- Whether views follow each other without gaps from an offset on. -/
def Abut (offset : Nat) : List View → Prop
  | [] => True
  | t :: rest => t.offset = offset ∧ Abut (offset + t.width) rest

namespace Abut

variable {offset : Nat} {a b views : List View}

/-- Views abut if the first ones do and the others start where these end. -/
theorem append_iff : Abut offset (a ++ b) ↔ Abut offset a ∧ Abut (offset + sumOf width a) b := by
  induction a generalizing offset with
  | nil => simp [Abut]
  | cons t a ih => simp only [List.cons_append, Abut, ih, sumOf_cons, Nat.add_assoc, and_assoc]

theorem le_offset (h : Abut offset views) : ∀ t ∈ views, offset ≤ t.offset := by
  induction views generalizing offset with
  | nil => exact fun t ht => absurd ht List.not_mem_nil
  | cons u views ih =>
    intro t ht
    rcases List.mem_cons.mp ht with rfl | ht
    · exact Nat.le_of_eq h.1.symm
    · exact Nat.le_trans (Nat.le_add_right ..) (ih h.2 t ht)

/-- Of views that follow each other, each ends before the later ones start. -/
theorem pairwise (h : Abut offset views) :
    views.Pairwise fun t u => t.offset + t.width ≤ u.offset := by
  induction views generalizing offset with
  | nil => exact .nil
  | cons t views ih => exact .cons (fun u hu => h.1 ▸ h.2.le_offset u hu) (ih h.2)

end Abut

/-- The tokens of an element are as wide together as the element. -/
theorem tokenWidth_entriesAt (parent : View) (index offset : Nat) {g : Green} (hg : g.Genuine) :
    tokenWidth (entriesAt (fun _ => false) (child parent index offset g) g) = g.width := by
  have hwidth := tokenWidth_entriesIn parent index offset (Green.genuineAll_some hg)
  simpa [entriesIn, Green.slotsWidth] using hwidth

/-- The tokens of slots abut if those of each do. -/
theorem abut_entriesIn (parent : View) (index offset : Nat) {slots : List Slot}
    (hg : Green.GenuineAll slots)
    (h : ∀ g, some g ∈ slots → ∀ v : View, v.green = g →
      Abut v.offset ((entriesAt (fun _ => false) v g).filter fun d => !d.isNode)) :
    Abut offset ((entriesIn (fun _ => false) parent index offset slots).filter
      fun d => !d.isNode) := by
  induction slots generalizing index offset with
  | nil => trivial
  | cons slot slots ih =>
    have htail (index offset : Nat) := ih index offset
      (fun c hc => hg c (List.mem_cons_of_mem _ hc)) fun c hc => h c (List.mem_cons_of_mem _ hc)
    cases slot with
    | none => exact htail (index + 1) offset
    | some g =>
      rw [entriesIn, List.filter_append, Abut.append_iff]
      refine ⟨h g List.mem_cons_self (child parent index offset g) rfl, ?_⟩
      have hwidth := tokenWidth_entriesAt parent index offset (hg g List.mem_cons_self)
      rw [tokenWidth] at hwidth
      rw [hwidth]
      exact htail (index + 1) (offset + g.width)

/-- The tokens of a view follow each other without gaps. -/
theorem abut_tokens (hg : v.green.Genuine) : Abut v.offset v.tokens := by
  rw [tokens, descendants_eq]
  generalize hgreen : v.green = g at hg ⊢
  induction g using Green.induct generalizing v with
  | token t => simp [entriesAt, isNode, hgreen, Green.isNode, Abut]
  | node head slots ih =>
    have hnode : v.isNode = true := by rw [isNode, hgreen]; rfl
    have hslots := abut_entriesIn v 0 v.offset hg.genuineAll_slots fun g hmem u hu =>
      ih g hmem hu (hg.genuineAll_slots g hmem)
    simpa [entriesAt, hnode, Green.slots] using hslots

/-- The text of a view is the texts of its tokens. -/
theorem toList_text_eq_tokens (v : View) :
    v.text.toList = v.tokens.flatMap fun t => t.text.toList := by
  have hgreen := congrArg (List.flatMap fun g => g.text.toList) v.map_green_tokens
  rw [List.flatMap_map, List.flatMap_map, Green.tokens_eq] at hgreen
  simp only [Green.toList_text, Green.leaves, List.flatMap_singleton] at hgreen
  simpa only [text, Green.toList_text] using hgreen.symm

/-- The tokens of a view show tokens within the element that the view shows. -/
theorem exists_of_mem_tokens (ht : t ∈ v.tokens) :
    ∃ x : GreenToken, t.green = .token x ∧ (Green.token x).Within v.green := by
  obtain ⟨⟨path, hpath⟩, htoken⟩ := mem_tokens.mp ht
  have hwithin := within_of_descend? hpath
  cases hgreen : t.green with
  | token x => exact ⟨x, rfl, hgreen ▸ hwithin⟩
  | node head slots => simp [isNode, hgreen, Green.isNode] at htoken

theorem genuine_of_mem_tokens (hg : v.green.Genuine) (ht : t ∈ v.tokens) : t.green.Genuine := by
  obtain ⟨x, hgreen, hwithin⟩ := exists_of_mem_tokens ht
  exact hgreen ▸ hg.of_within hwithin

/-- Tokens that follow one another spell as many bytes as they are wide. -/
theorem byteLength_flatMap_text {views : List View} (h : ∀ t ∈ views, t.green.Genuine) :
    Text.byteLength (views.flatMap fun t => t.text.toList) = sumOf width views := by
  induction views with
  | nil => rfl
  | cons t views ih =>
    have htail := ih fun u hu => h u (List.mem_cons_of_mem _ hu)
    have hwidth : t.width = Text.byteLength t.text.toList := (h t List.mem_cons_self).width_eq
    rw [List.flatMap_cons, Text.byteLength_append, htail, sumOf_cons, hwidth]

/-- A token starts as far behind the start of a view as there is text of the view before it. -/
theorem exists_text_of_mem_tokens (hg : v.green.Genuine) (ht : t ∈ v.tokens) :
    ∃ front back, v.text.toList = front ++ (t.text.toList ++ back) ∧
      t.offset = v.offset + Text.byteLength front := by
  obtain ⟨before, after, hsplit⟩ := List.append_of_mem ht
  have habut := abut_tokens hg
  rw [hsplit, Abut.append_iff] at habut
  have hbefore : ∀ u ∈ before, u.green.Genuine := fun u hu =>
    genuine_of_mem_tokens hg (hsplit ▸ List.mem_append_left _ hu)
  refine ⟨before.flatMap fun u => u.text.toList, after.flatMap fun u => u.text.toList, ?_, ?_⟩
  · rw [toList_text_eq_tokens, hsplit, List.flatMap_append, List.flatMap_cons]
  · rw [byteLength_flatMap_text hbefore]
    exact habut.2.1

/-- The content of a token starts in it. -/
theorem offset_le_start_contentSpan (v : View) : v.offset ≤ v.contentSpan.start := by
  cases hg : v.green <;> simp [contentSpan, hg, span]

/-- The content of a token ends in it. -/
theorem stop_contentSpan_le (v : View) : v.contentSpan.stop ≤ v.offset + v.width := by
  cases hg : v.green <;> simp [contentSpan, hg, span]

/-- A span in a view that starts and ends between characters of its text. -/
structure Cuts (v : View) (span : Text.Span) : Prop where
  offset_le : v.offset ≤ span.start
  le : span.start ≤ span.stop
  start : Text.isBoundary v.text.toList (span.start - v.offset) = true
  stop : Text.isBoundary v.text.toList (span.stop - v.offset) = true

section Aligned

variable (hg : v.green.Genuine) (ha : v.green.Aligned)

include hg ha

/-- The content of each token can be cut out. -/
theorem exists_trimmedText_of_mem_tokens (ht : t ∈ v.tokens) :
    ∃ text, t.trimmedText = .ok text := by
  obtain ⟨x, hgreen, hx⟩ := exists_of_mem_tokens ht
  obtain ⟨text, htext⟩ := x.data.exists_trimmedText (hg.of_within hx).check (ha x hx)
  exact ⟨text, by rw [trimmedText, hgreen]; exact htext⟩

/-- The content of each token stands between characters of the text. -/
theorem cuts_contentSpan (ht : t ∈ v.tokens) : v.Cuts t.contentSpan := by
  obtain ⟨x, hgreen, hx⟩ := exists_of_mem_tokens ht
  obtain ⟨front, back, htext, hoffset⟩ := exists_text_of_mem_tokens hg ht
  have hcontent : t.text.toList = x.data.text.toList := by
    simp [text, hgreen, Green.toList_text, Green.leaves]
  have hwidth : t.width = x.data.width := by rw [width, hgreen]; rfl
  have hspan : t.contentSpan =
      ⟨t.offset + x.data.leadingWidth, t.offset + t.width - x.data.trailingWidth⟩ := by
    rw [contentSpan, hgreen]
    rfl
  have hfits := (TokenData.check_eq_ok_iff.mp (hg.of_within hx).check).1
  have hboundary {n : Nat} (hn : Text.isBoundary x.data.text.toList n = true) :
      Text.isBoundary v.text.toList (Text.byteLength front + n) = true := by
    rw [htext, hcontent]
    exact Text.isBoundary_append front back hn
  obtain ⟨hstart, hstop⟩ := Bool.and_eq_true_iff.mp (ha x hx)
  rw [hspan]
  constructor
  · show v.offset ≤ t.offset + x.data.leadingWidth
    omega
  · show t.offset + x.data.leadingWidth ≤ t.offset + t.width - x.data.trailingWidth
    omega
  · have heq : t.offset + x.data.leadingWidth - v.offset =
        Text.byteLength front + x.data.leadingWidth := by omega
    exact heq ▸ hboundary hstart
  · have heq : t.offset + t.width - x.data.trailingWidth - v.offset =
        Text.byteLength front + (x.data.width - x.data.trailingWidth) := by omega
    exact heq ▸ hboundary hstop

/-- Every view can be trimmed. -/
theorem exists_cuts_trimmedSpan : ∃ span, v.trimmedSpan = .ok span ∧ v.Cuts span := by
  cases hnode : v.isNode with
  | false =>
    have hself : v ∈ v.tokens := mem_tokens.mpr ⟨⟨[], rfl⟩, hnode⟩
    exact ⟨v.contentSpan, by rw [trimmedSpan, hnode]; rfl, cuts_contentSpan hg ha hself⟩
  | true =>
    have htest : ∀ t ∈ v.tokens,
        ∃ b, (do return !(← trimmedText t).isEmpty : Except Fault Bool) = .ok b := by
      intro t ht
      obtain ⟨text, htext⟩ := exists_trimmedText_of_mem_tokens hg ha ht
      exact ⟨_, by rw [htext]; rfl⟩
    obtain ⟨solid, hsolid, hsub⟩ := exists_filterM_eq_ok htest
    have hcuts : ∀ t ∈ solid, v.Cuts t.contentSpan := fun t ht =>
      cuts_contentSpan hg ha (hsub.subset ht)
    rw [trimmedSpan, if_pos hnode, solidTokens, hsolid]
    cases solid with
    | nil =>
      refine ⟨.emptyAt v.offset, rfl, Nat.le_refl _, Nat.le_refl _, ?_, ?_⟩ <;>
        simp [Text.Span.emptyAt, Text.isBoundary, Text.splitBytes?]
    | cons first rest =>
      obtain ⟨last, hlast⟩ : ∃ last, (first :: rest).getLast? = some last :=
        ⟨_, List.getLast?_cons ..⟩
      have hfirst := hcuts first List.mem_cons_self
      have hend := hcuts last (List.mem_of_getLast? hlast)
      refine ⟨⟨first.contentSpan.start, last.contentSpan.stop⟩, ?_, hfirst.offset_le, ?_,
        hfirst.start, hend.stop⟩
      · simp only [bind, Except.bind, List.head?_cons, hlast]
        rfl
      · -- the last token is the first one, or starts behind the end of it
        rcases List.mem_cons.mp (List.mem_of_getLast? hlast) with rfl | hbehind
        · exact hfirst.le
        · have hpairwise := (abut_tokens hg).pairwise.sublist hsub
          have hapart := (List.pairwise_cons.mp hpairwise).1 last hbehind
          calc first.contentSpan.start
            _ ≤ first.contentSpan.stop := hfirst.le
            _ ≤ first.offset + first.width := first.stop_contentSpan_le
            _ ≤ last.offset := hapart
            _ ≤ last.contentSpan.start := last.offset_le_start_contentSpan
            _ ≤ last.contentSpan.stop := hend.le

/-- The text of every view can be cut out. -/
theorem exists_innerText_of_aligned : ∃ text, v.innerText = .ok text := by
  obtain ⟨span, hspan, hcuts⟩ := exists_cuts_trimmedSpan hg ha
  have hle := Nat.sub_le_sub_right hcuts.le v.offset
  obtain ⟨part, hpart⟩ := Text.exists_slice? hcuts.start hcuts.stop hle
  exact ⟨part, by rw [innerText, hspan]; simp only [bind, Except.bind, hpart]; rfl⟩

end Aligned

end View

end Verbatim
