import Verbatim.Proofs.Balance
import Verbatim.Proofs.Coherence

/-!
# Building a sketch

The steps of a sketch that conforms build exactly what it shows, in any coherent store: the sketch
says of every slot what kind of element it holds, whether that was read, and which text it has. The
one thing that can fail is a byte count, and it fails exactly if the text of the sketch does not
fit.
-/

namespace Verbatim

/-- What a store keeps of a token that was read. -/
def Token.stored (t : Token) : TokenData :=
  ⟨t.kind, .present, String.ofList t.chars, t.leadingPieces, t.trailingPieces⟩

namespace Sketch

/-- Number of bytes of the text of some slots. -/
def widthOf (slots : List Sketch) : Nat :=
  sumOf (fun t => Text.byteLength t.chars) (tokensOf slots)

/-- Number of bytes of the text of a slot. -/
def width (s : Sketch) : Nat := sumOf (fun t => Text.byteLength t.chars) s.tokens

theorem widthOf_cons (s : Sketch) (slots : List Sketch) :
    widthOf (s :: slots) = s.width + widthOf slots := by
  simp [widthOf, width, tokensOf]

theorem width_le_widthOf {s : Sketch} {slots : List Sketch} (h : s ∈ slots) :
    s.width ≤ widthOf slots := by
  induction slots with
  | nil => cases h
  | cons t slots ih =>
    rw [widthOf_cons]
    rcases List.mem_cons.mp h with rfl | h
    · exact Nat.le_add_right _ _
    · exact Nat.le_trans (ih h) (Nat.le_add_left _ _)

mutual
/-- A slot holds what a sketch shows. -/
def Built : Sketch → Slot → Prop
  | token t, slot => ∃ g, slot = some (.token g) ∧ g.data = t.stored
  | missing kind, slot =>
    if kind.isToken then ∃ g, slot = some (.token g) ∧ g.data = ⟨kind, .missing, "", [], []⟩
    else ∃ id, slot = some (.node ⟨id, kind, .missing, 0, true⟩
      (List.replicate kind.slotSpecs.length none))
  | absent, slot => slot = none
  | node kind _ slots, slot =>
    ∃ id built, slot = some (.node ⟨id, kind, .present, Green.slotsWidth built,
      Green.errorOf kind .present built⟩ built) ∧ BuiltAll slots built
/-- Slots hold what sketches show, one by one. -/
def BuiltAll : List Sketch → List Slot → Prop
  | [], built => built = []
  | s :: slots, built => ∃ slot rest, built = slot :: rest ∧ s.Built slot ∧ BuiltAll slots rest
end

theorem BuiltAll.length_eq {slots : List Sketch} {built : List Slot} (h : BuiltAll slots built) :
    built.length = slots.length := by
  induction slots generalizing built with
  | nil => simp [BuiltAll] at h; simp [h]
  | cons s slots ih =>
    obtain ⟨slot, rest, rfl, -, hrest⟩ := h
    simp [ih hrest]

/-- What was built in some slots is as wide as they are. -/
theorem BuiltAll.slotsWidth_eq {slots : List Sketch} {built : List Slot} (h : BuiltAll slots built)
    (hslots : ∀ s ∈ slots, ∀ slot, s.Built slot → slot.elim 0 Green.width = s.width) :
    Green.slotsWidth built = widthOf slots := by
  induction slots generalizing built with
  | nil =>
    obtain rfl := h
    rfl
  | cons s slots ih =>
    obtain ⟨slot, rest, rfl, hs, hrest⟩ := h
    have htail := ih hrest fun t ht => hslots t (List.mem_cons_of_mem _ ht)
    rw [widthOf_cons, ← htail, ← hslots s List.mem_cons_self slot hs]
    rfl

/-- What was built is as wide as the sketch. -/
theorem Built.width_eq {s : Sketch} {slot : Slot} (h : s.Built slot) :
    slot.elim 0 Green.width = s.width := by
  induction s using Sketch.induct generalizing slot with
  | token t =>
    obtain ⟨g, rfl, hg⟩ := h
    simp [Green.width, hg, Token.stored, TokenData.width, Text.utf8ByteSize_ofList, width, tokens]
  | missing kind =>
    simp only [Built] at h
    split at h
    · obtain ⟨g, rfl, hg⟩ := h
      simp [Green.width, hg, TokenData.width, width, tokens]
    · obtain ⟨id, rfl⟩ := h
      rfl
  | absent =>
    obtain rfl := h
    rfl
  | node kind late slots ih =>
    obtain ⟨id, built, rfl, hbuilt⟩ := h
    exact hbuilt.slotsWidth_eq fun s hs slot => ih s hs

end Sketch

namespace Alloc

variable {α β : Type} {x : Alloc α} {f : α → Alloc β} {st : Store} {r : Registry}

/-- Actions that make what they should, one after the other. -/
theorem Makes.bind {good : α → Registry → Prop} {better : β → Registry → Prop}
    (hx : Makes x st r good)
    (hf : ∀ a t r', t.Respects r' → r.Le r' → good a r' → Makes (f a) t r' better) :
    Makes (x >>= f) st r better := by
  obtain ⟨a, t, r', ha, ht, hle, htag, hgood⟩ := hx
  obtain ⟨b, u, r'', hb, hu, hle', htag', hbetter⟩ := hf a t r' ht hle hgood
  exact ⟨b, u, r'', (bind_eq_of_ok ha).trans hb, hu, hle.trans hle', htag'.trans htag, hbetter⟩

theorem Makes.pure {a : α} {good : α → Registry → Prop} (h : st.Respects r) (ha : good a r) :
    Makes (pure a) st r good :=
  ⟨a, st, r, rfl, h, .refl r, rfl, ha⟩

/-- A placeholder of whichever sort the kind is. -/
theorem makes_missing (h : st.Respects r) (kind : Kind) :
    Makes (missing kind) st r fun g r' =>
      (Sketch.missing kind).Built (some g) ∧ r'.Knows g := by
  unfold missing
  by_cases hkind : kind.isToken = true
  · have hcheck : (⟨kind, .missing, "", [], []⟩ : TokenData).check = .ok () :=
      TokenData.check_eq_ok_iff.mpr ⟨Nat.le_refl _, (by decide : 0 < Width.limit), .inr rfl⟩
    rw [if_pos hkind]
    refine (makes_makeToken h hkind hcheck).bind fun t _ r' ht _ hgood => .pure ht ⟨?_, hgood.2⟩
    simp only [Sketch.Built, hkind, if_true]
    exact ⟨t, rfl, hgood.1⟩
  · have hnone : r.KnowsAll (List.replicate kind.slotSpecs.length none) := fun c hc => by
      simp at hc
    have hwidth : Green.slotsWidth (List.replicate kind.slotSpecs.length none) = 0 := by
      simp [Green.slotsWidth]
    have hnode : kind.isNode = true := by simpa [Kind.isNode] using hkind
    rw [if_neg hkind]
    unfold missingNode
    rw [if_pos hnode]
    obtain ⟨g, t, r', hg, ht, hle, htag, hgood⟩ :=
      makes_allocNode kind .missing h hnone (hwidth ▸ (by decide : 0 < Width.limit))
    refine ⟨g, t, r', hg, ht, hle, htag, ?_, hgood.knows⟩
    obtain ⟨id, rfl⟩ := hgood.eq
    simp only [Sketch.Built, hkind]
    exact ⟨id, by rw [hwidth]; rfl⟩

end Alloc

namespace Token

theorem leadingWidth_stored (t : Token) :
    t.stored.leadingWidth = Text.byteLength (Trivia.chars t.leading) :=
  total_pieces t.leading

theorem trailingWidth_stored (t : Token) :
    t.stored.trailingWidth = Text.byteLength (Trivia.chars t.trailing) :=
  total_pieces t.trailing

theorem width_stored (t : Token) : t.stored.width = Text.byteLength t.chars :=
  Text.utf8ByteSize_ofList _

/-- The trivia of a token is part of its text. -/
theorem trivia_le_width (t : Token) :
    t.stored.leadingWidth + t.stored.trailingWidth ≤ t.stored.width := by
  rw [leadingWidth_stored, trailingWidth_stored, width_stored, chars, Text.byteLength_append,
    Text.byteLength_append]
  omega

/-- A token that fits can be stored. -/
theorem check_stored {t : Token} (h : Text.byteLength t.chars < Width.limit) :
    t.stored.check = .ok () :=
  TokenData.check_eq_ok_iff.mpr ⟨t.trivia_le_width, t.width_stored ▸ h, .inl rfl⟩

end Token

/-- Only kinds of nodes have layouts that admit slots. -/
theorem Kind.isNode_of_admits {kind : Kind} {kinds : List (Option Kind)}
    (h : kind.layout.admits kinds = true) : kind.isNode = true := by
  revert h
  cases kind <;> first | exact fun _ => rfl | exact nofun

/-- A node that conforms has the number of slots its layout declares. -/
theorem Layout.length_of_admits {specs : List SlotSpec} {kinds : List (Option Kind)}
    (h : (Layout.fixed specs).admits kinds = true) : kinds.length = specs.length := by
  simp only [admits, Bool.and_eq_true, beq_iff_eq] at h
  exact h.1.symm

theorem Builder.step_start_eq (b : Builder) {kind : Kind} (h : kind.isNode = true) (st : Store) :
    b.step (.start kind) st = (.ok ⟨(kind, b.filled) :: b.opened, []⟩, st) :=
  Alloc.ofExcept_eq_of_ok (if_pos h)

/-- A node whose slots were built is closed around them. -/
theorem Sketch.BuiltAll.finishNode_eq {kind : Kind} {slots : List Sketch} {built before : List Slot}
    {opened : List (Kind × List Slot)} (h : BuiltAll slots built)
    (hadmits : kind.layout.admits (slots.map kind?) = true) :
    Builder.finishNode ⟨(kind, before) :: opened, built.reverse ++ []⟩ = (do
      let node ← Alloc.makeNode kind built
      return ⟨opened, some node :: before⟩) := by
  have harity : ∀ specs, kind.layout = .fixed specs →
      (built.reverse ++ []).length = specs.length := by
    intro specs hlayout
    rw [hlayout] at hadmits
    simpa [h.length_eq] using Layout.length_of_admits hadmits
  rw [Builder.finishNode_of_arity rfl harity, List.append_nil, List.reverse_reverse]

namespace Sketch

open Alloc

/-- The steps of a slot put into a builder what the slot shows. -/
def Builds (s : Sketch) : Prop :=
  ∀ (b : Builder) (st : Store) (r : Registry), st.Respects r →
    Makes (s.steps.foldlM Builder.step b) st r fun c r' =>
      ∃ slot, c = b.fill slot ∧ s.Built slot ∧ r'.KnowsAll [slot]

/-- Slots are built one after the other. -/
theorem makes_stepsOf {slots : List Sketch} (hslots : ∀ s ∈ slots, Builds s) (b : Builder)
    {st : Store} {r : Registry} (h : st.Respects r) :
    Makes ((stepsOf slots).foldlM Builder.step b) st r fun c r' =>
      ∃ built, c = ⟨b.opened, built.reverse ++ b.filled⟩ ∧ BuiltAll slots built ∧
        r'.KnowsAll built := by
  induction slots generalizing b st r with
  | nil => exact .pure h ⟨[], rfl, rfl, nofun⟩
  | cons s slots ih =>
    rw [stepsOf, List.foldlM_append]
    refine (hslots s List.mem_cons_self b st r h).bind ?_
    rintro _ t r' ht _ ⟨slot, rfl, hs, hknows⟩
    obtain ⟨c, u, r'', hrun, hu, hle, htag, built, rfl, hbuilt, hknows'⟩ :=
      ih (fun s hs => hslots s (List.mem_cons_of_mem _ hs)) (b.fill slot) ht
    refine ⟨_, u, r'', hrun, hu, hle, htag, slot :: built, ?_, ⟨slot, built, rfl, hs, hbuilt⟩, ?_⟩
    · simp [Builder.fill]
    · intro g hg
      rcases List.mem_cons.mp hg with hg | hg
      · exact (hknows g (hg ▸ List.mem_cons_self)).mono hle
      · exact hknows' g hg

theorem builds_node {kind : Kind} {late : Bool} {slots : List Sketch}
    (hs : (node kind late slots).Conforms) (hwidth : widthOf slots < Width.limit)
    (hslots : ∀ s ∈ slots, Builds s) : Builds (node kind late slots) := by
  obtain ⟨-, hadmits, -, -⟩ := hs
  intro b st r h
  have hopen : Makes (b.step (.start kind)) st r
      fun c _ => c = ⟨(kind, b.filled) :: b.opened, []⟩ :=
    ⟨_, st, r, b.step_start_eq (Kind.isNode_of_admits hadmits) st, h, .refl r, rfl, rfl⟩
  rw [steps, List.foldlM_cons]
  refine hopen.bind ?_
  rintro _ t r' ht - rfl
  rw [List.foldlM_append]
  refine (makes_stepsOf hslots _ ht).bind ?_
  rintro _ u r'' hu - ⟨built, rfl, hbuilt, hknows⟩
  have hbytes : Green.slotsWidth built < Width.limit := by
    rw [hbuilt.slotsWidth_eq fun s _ slot hslot => hslot.width_eq]
    exact hwidth
  have hfinish : Makes (Builder.finishNode
      ⟨(kind, b.filled) :: b.opened, built.reverse ++ []⟩) u r'' fun c r =>
        ∃ slot, c = b.fill slot ∧ (node kind late slots).Built slot ∧ r.KnowsAll [slot] := by
    rw [hbuilt.finishNode_eq hadmits]
    refine (makes_allocNode kind .present hu hknows hbytes).bind fun g v r hv _ hg => .pure hv ?_
    obtain ⟨id, rfl⟩ := hg.eq
    refine ⟨_, rfl, ⟨id, built, rfl, hbuilt⟩, fun c hc => ?_⟩
    cases List.mem_singleton.mp hc
    exact hg.knows
  rw [List.foldlM_cons]
  exact hfinish.bind fun c v r hv _ hc => .pure hv hc

/-- Every sketch that conforms and whose text fits is built as it shows. -/
theorem builds_of_conforms (s : Sketch) : s.Conforms → s.width < Width.limit → Builds s := by
  induction s using Sketch.induct with
  | token t =>
    intro hkind hwidth b st r h
    have hbytes : Text.byteLength t.chars < Width.limit := by simpa [width, tokens] using hwidth
    rw [steps, List.foldlM_cons]
    refine ((makes_makeToken (d := t.stored) h hkind (Token.check_stored hbytes)).bind
      fun g u r' hu _ hg => .pure hu ?_ : Makes _ _ _ _).bind fun c v r hv _ hc => .pure hv hc
    refine ⟨_, rfl, ⟨g, rfl, hg.1⟩, fun c hc => ?_⟩
    cases List.mem_singleton.mp hc
    exact hg.2
  | missing kind =>
    intro _ _ b st r h
    rw [steps, List.foldlM_cons]
    refine ((makes_missing h kind).bind fun g u r' hu _ hg => .pure hu ?_ :
      Makes _ _ _ _).bind fun c v r hv _ hc => .pure hv hc
    refine ⟨_, rfl, hg.1, fun c hc => ?_⟩
    cases List.mem_singleton.mp hc
    exact hg.2
  | absent => exact fun _ _ b st r h => .pure h ⟨none, rfl, rfl, fun c hc => by simp at hc⟩
  | node kind late slots ih =>
    intro hs hwidth
    exact builds_node hs hwidth fun s hmem => ih s hmem (hs.of_mem hmem)
      (Nat.lt_of_le_of_lt (width_le_widthOf hmem) hwidth)

/-- The steps of a slot cannot be taken. -/
def Fails (s : Sketch) : Prop :=
  ∀ (b : Builder) (st : Store) (r : Registry), st.Respects r →
    ∃ fault t, s.steps.foldlM Builder.step b st = (.error fault, t)

/-- Slots of which one does not fit cannot be built. -/
theorem fails_stepsOf {slots : List Sketch} (hslots : ConformAll slots)
    (hfails : ∀ s ∈ slots, Width.limit ≤ s.width → Fails s)
    (hwide : ∃ s ∈ slots, Width.limit ≤ s.width) (b : Builder) {st : Store} {r : Registry}
    (h : st.Respects r) :
    ∃ fault t, (stepsOf slots).foldlM Builder.step b st = (.error fault, t) := by
  induction slots generalizing b st r with
  | nil => simp at hwide
  | cons s slots ih =>
    rw [stepsOf, List.foldlM_append]
    by_cases hs : Width.limit ≤ s.width
    · obtain ⟨fault, t, hrun⟩ := hfails s List.mem_cons_self hs b st r h
      exact ⟨fault, t, bind_eq_of_error hrun⟩
    · obtain ⟨c, t, r', hrun, ht, -⟩ :=
        builds_of_conforms s hslots.1 (Nat.lt_of_not_le hs) b st r h
      have hrest : ∃ s ∈ slots, Width.limit ≤ s.width := by simpa [hs] using hwide
      rw [bind_eq_of_ok hrun]
      exact ih hslots.2 (fun s hs => hfails s (List.mem_cons_of_mem _ hs)) hrest c ht

/-- Every sketch that conforms and whose text does not fit cannot be built. -/
theorem fails_of_conforms (s : Sketch) : s.Conforms → Width.limit ≤ s.width → Fails s := by
  have hlimit : 0 < Width.limit := by decide
  induction s using Sketch.induct with
  | token t =>
    intro _ hwidth b st r h
    have hbytes : Width.limit ≤ t.stored.width := by
      simpa [width, tokens, Token.width_stored] using hwidth
    obtain ⟨fault, u, hrun⟩ := makeToken_eq_error h hbytes
    rw [steps, List.foldlM_cons]
    exact ⟨fault, u, bind_eq_of_error (bind_eq_of_error hrun)⟩
  | missing kind | absent =>
    intro _ hwidth
    simp only [width, tokens, sumOf_nil] at hwidth
    omega
  | node kind late slots ih =>
    intro hs hwidth b st r h
    obtain ⟨-, hadmits, -, -, hall⟩ := hs
    rw [steps, List.foldlM_cons,
      bind_eq_of_ok (b.step_start_eq (Kind.isNode_of_admits hadmits) st), List.foldlM_append]
    -- one of the slots does not fit, or all of them are built and do not fit together
    by_cases hwide : ∃ s ∈ slots, Width.limit ≤ s.width
    · obtain ⟨fault, t, hrun⟩ := fails_stepsOf hall
        (fun s hs => ih s hs (conformAll_iff.mp hall s hs)) hwide _ h
      exact ⟨fault, t, bind_eq_of_error hrun⟩
    · obtain ⟨c, t, r', hrun, ht, -, -, built, rfl, hbuilt, hknows⟩ := makes_stepsOf (fun s hs =>
        builds_of_conforms s (conformAll_iff.mp hall s hs)
          (Nat.lt_of_not_le fun hle => hwide ⟨s, hs, hle⟩)) ⟨(kind, b.filled) :: b.opened, []⟩ h
      have hbytes : Width.limit ≤ Green.slotsWidth built := by
        rw [hbuilt.slotsWidth_eq fun s _ slot hslot => hslot.width_eq]
        exact hwidth
      obtain ⟨fault, u, hnode⟩ := allocNode_eq_error kind .present ht hknows hbytes
      have hfinish : Builder.finishNode ⟨(kind, b.filled) :: b.opened, built.reverse ++ []⟩ t =
          (.error fault, u) := by
        rw [hbuilt.finishNode_eq hadmits]
        exact bind_eq_of_error hnode
      rw [bind_eq_of_ok hrun, List.foldlM_cons]
      exact ⟨fault, u, bind_eq_of_error hfinish⟩

/-- A node that conforms and whose text fits is the tree its steps build. -/
theorem makes_run {kind : Kind} {late : Bool} {slots : List Sketch}
    (hs : (node kind late slots).Conforms) (hwidth : (node kind late slots).width < Width.limit)
    {st : Store} {r : Registry} (h : st.Respects r) :
    Makes (Builder.run (node kind late slots).steps) st r fun g _ =>
      (node kind late slots).Built (some g) := by
  refine (builds_of_conforms _ hs hwidth {} st r h).bind ?_
  rintro _ t r' ht - ⟨slot, rfl, hbuilt, -⟩
  obtain ⟨id, built, rfl, hall⟩ := hbuilt
  exact ⟨_, t, r', rfl, ht, .refl r', rfl, id, built, rfl, hall⟩

/-- A sketch that conforms and whose text does not fit has no tree. -/
theorem run_eq_error {s : Sketch} (hs : s.Conforms) (hwidth : Width.limit ≤ s.width) {st : Store}
    {r : Registry} (h : st.Respects r) :
    ∃ fault t, Builder.run s.steps st = (.error fault, t) := by
  obtain ⟨fault, t, hrun⟩ := fails_of_conforms s hs hwidth {} st r h
  exact ⟨fault, t, bind_eq_of_error hrun⟩

end Sketch

end Verbatim
