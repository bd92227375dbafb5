import Verbatim.Proofs.Lookahead
import Verbatim.Proofs.Lossless

/-!
# Nothing is missing without need

A placeholder stands where the grammar wanted something and saw something else. In the order of the
tree, the next token that was read after a placeholder is therefore none that the missing element
could start with. Expressions are the exception: past the nesting limit they are not looked at, and
a placeholder may stand in front of one.
-/

namespace Verbatim

namespace View

open Sketch

variable {unlimited : Prop}

/-- The tokens that are read in some slots have the kinds that their sketches show. -/
theorem map_kind_entriesIn {slots : List Sketch} {built : List Slot} (h : BuiltAll slots built)
    (parent : View) (index offset : Nat) :
    ((entriesIn (fun _ => false) parent index offset built).filter isRead).map kind =
      (tokensOf slots).map Token.kind := by
  have hleaves := h.leaves_eq fun _ _ _ hs => hs.leaves_eq
  have hread := (Sketch.node .itemList false slots).filter_leaves
  rw [Sketch.leaves, Sketch.tokens, ← hleaves, List.filter_map] at hread
  have hsplit : isRead = fun v => (fun v => !v.isMissing) v && (fun v => !v.isNode) v := by
    funext v
    rw [isRead, Bool.and_comm]
  have hentries := filter_entriesIn parent index offset built
  calc ((entriesIn (fun _ => false) parent index offset built).filter isRead).map kind
    _ = ((((entriesIn (fun _ => false) parent index offset built).filter fun v => !v.isNode).map
          green).filter fun g => !g.isMissing).map Green.kind := by
      rw [hsplit, ← List.filter_filter, List.filter_map, List.map_map]
      rfl
    _ = ((Green.leavesOf built).filter fun t => t.data.presence == .present).map
          fun t => t.data.kind := by
      rw [hentries, List.filter_map, List.map_map]
      refine congrArg (List.map _) (List.filter_congr fun t _ => ?_)
      simp only [Function.comp, Green.isMissing, Green.presence]
      cases t.data.presence <;> rfl
    _ = (tokensOf slots).map Token.kind := by
      have hkinds := congrArg (List.map TokenData.kind) hread
      rwa [List.map_map, List.map_map] at hkinds

/-- Wherever a placeholder is entered, a token is read later, and the first such token is none that
the missing element could start with. -/
def NoneSpurious (unlimited : Prop) : List View → Prop
  | [] => True
  | v :: later => (v.isMissing = true → ∃ t, later.find? isRead = some t ∧
      ((v.kind = .missingExpr → unlimited) → t.kind ∉ v.kind.openers)) ∧
    NoneSpurious unlimited later

theorem NoneSpurious.of_append {front later : List View} {v : View}
    (h : NoneSpurious unlimited (front ++ v :: later)) (hv : v.isMissing = true) :
    ∃ t, later.find? isRead = some t ∧
      ((v.kind = .missingExpr → unlimited) → t.kind ∉ v.kind.openers) := by
  induction front with
  | nil => exact h.1 hv
  | cons u front ih => exact ih h.2

/-- The tokens before which a view is entered are those that are read later. -/
def ReadLater (later : List View) (after : List Token) : Prop :=
  (later.filter isRead).map kind = after.map Token.kind

/-- The first token that is read later is found by its kind. -/
theorem exists_find?_isRead {later : List View} {after : List Token}
    (h : ReadLater later after) (hne : after ≠ []) :
    ∃ t, later.find? isRead = some t ∧ t.kind = Kind.first (after.map Token.kind) := by
  cases after with
  | nil => exact absurd rfl hne
  | cons u after =>
    obtain ⟨t, rest, hfilter, hkind, -⟩ := List.map_eq_cons_iff.mp h
    refine ⟨t, ?_, hkind⟩
    rw [← List.head?_filter, hfilter]
    rfl

/-- What is entered in slots has no needless placeholders, if this is so of what stands in them. -/
theorem noneSpurious_entriesIn {slots : List Sketch} {built : List Slot} {after : List Token}
    {later : List View} (hbuilt : BuiltAll slots built)
    (hslots : EverywhereIn (Followed unlimited) after slots)
    (hkinds : ReadLater later after) (hlater : NoneSpurious unlimited later)
    (h : ∀ s ∈ slots, ∀ v after later, s.Built (some v.green) →
      s.Everywhere (Followed unlimited) after → ReadLater later after →
      NoneSpurious unlimited later →
      NoneSpurious unlimited (entriesAt (fun _ => false) v v.green ++ later))
    (parent : View) (index offset : Nat) :
    NoneSpurious unlimited (entriesIn (fun _ => false) parent index offset built ++ later) := by
  induction slots generalizing built index offset with
  | nil =>
    obtain rfl := hbuilt
    exact hlater
  | cons s slots ih =>
    obtain ⟨slot, rest, rfl, hs, hrest⟩ := hbuilt
    have htail := fun index offset => ih hrest hslots.2
      (fun t ht => h t (List.mem_cons_of_mem _ ht)) index offset
    cases slot with
    | none => exact htail (index + 1) offset
    | some g =>
      rw [entriesIn, List.append_assoc]
      refine h s List.mem_cons_self (.child parent index offset g) _ _ hs hslots.1 ?_ (htail ..)
      rw [ReadLater, List.filter_append, List.map_append, map_kind_entriesIn hrest, hkinds,
        List.map_append]

/-- What is entered in a tree that was built from an attentive sketch has no needless
placeholders. -/
theorem noneSpurious_entriesAt (s : Sketch) : ∀ (v : View) (after : List Token) (later : List View),
    s.Built (some v.green) → s.Everywhere (Followed unlimited) after → ReadLater later after →
    NoneSpurious unlimited later →
    NoneSpurious unlimited (entriesAt (fun _ => false) v v.green ++ later) := by
  induction s using Sketch.induct with
  | token t =>
    intro v after later hbuilt hs hkinds hlater
    obtain ⟨g, hg, hdata⟩ := hbuilt
    have hv : v.isMissing = false := by
      simp [isMissing, Option.some.inj hg, Green.isMissing, Green.presence, hdata, Token.stored]
    rw [Option.some.inj hg, entriesAt]
    exact ⟨fun hmissing => by simp [hv] at hmissing, hlater⟩
  | missing kind =>
    intro v after later hbuilt hs hkinds hlater
    have hkind : v.kind = kind := Option.some.inj hbuilt.kind_eq
    obtain ⟨t, ht, hfirst⟩ := exists_find?_isRead hkinds (hs.2 kind rfl)
    rw [entriesAt_of_missing hbuilt]
    refine ⟨fun _ => ⟨t, ht, fun hlimit => ?_⟩, hlater⟩
    rw [hfirst, hkind]
    exact hs.1.2 (hkind ▸ hlimit)
  | absent => exact fun v after later hbuilt => by cases hbuilt
  | node kind late slots ih =>
    intro v after later hbuilt hs hkinds hlater
    obtain ⟨id, built, hg, hbuilt⟩ := hbuilt
    have hv : v.isMissing = false := by
      simp [isMissing, Option.some.inj hg, Green.isMissing, Green.presence]
    rw [Option.some.inj hg, entriesAt]
    refine ⟨fun hmissing => by simp [hv] at hmissing, ?_⟩
    exact noneSpurious_entriesIn hbuilt hs.2 hkinds hlater ih v 0 v.offset

/-- The slots of a missing node are empty. -/
theorem slots_eq_none_of_isMissing {s : Sketch} {v : View} (h : s.Built (some v.green))
    (hv : v.isMissing = true) : ∀ slot ∈ v.green.slots, slot = none := by
  intro slot hslot
  cases slot with
  | none => rfl
  | some c =>
    obtain ⟨kind, late, slots, rfl, -⟩ := h.exists_node_of_slot hslot
    obtain ⟨id, built, hg, -⟩ := h
    simp [isMissing, Option.some.inj hg, Green.isMissing, Green.presence] at hv

end View

/-- In the tree of every text, after whatever is missing some token was read, and the first such
token in the order of the tree is none that the missing element could start with; of expressions
this is said for texts that do not meet the nesting limit. All slots of a missing node are empty. -/
theorem parse_missing_needed {st : Store} (hst : st.Coherent) (text : String) :
    (text.utf8ByteSize < 1 <<< 28 → ∃ v st', parse text st = (.ok v, st')) ∧
      ∀ v st', parse text st = (.ok v, st') → ∃ y, (tokenize text).parsed = .ok y ∧
        (∀ front m later, v.descendants = front ++ m :: later → m.isMissing = true →
          ∃ t, later.find? View.isRead = some t ∧
            ((m.kind = .missingExpr → y.nesting.refusals = 0) → t.kind ∉ m.kind.openers)) ∧
        ∀ d ∈ v.nodes, d.isMissing = true → ∀ slot ∈ d.green.slots, slot = none := by
  refine ⟨exists_parse_eq_ok hst, fun v st' hparse => ?_⟩
  obtain ⟨-, g, items, y, rfl, hparsed, hg⟩ := exists_of_parse_eq_ok hst hparse
  refine ⟨y, hparsed, fun front m later hsplit hm => ?_, fun d hd => ?_⟩
  · have hwhole := hg.reads.allAttentive_file (fun hy => hy) (final_tokenize text).eq_eof
    have hnone := View.noneSpurious_entriesAt _ (.root st.tag g) [] [] hg.built hwhole rfl trivial
    rw [List.append_nil, ← View.descendants_eq, hsplit] at hnone
    exact hnone.of_append hm
  · have hmem := (List.mem_filter.mp hd).1
    rw [View.descendants_eq] at hmem
    obtain ⟨s, before, hs⟩ := View.exists_shows_of_mem_entriesAt (hg.shows st.tag) d hmem
    exact View.slots_eq_none_of_isMissing hs.built

/-- A function in which something is missing at every turn. -/
theorem parse_missing_needed_everywhere :
    ({ tag := 0 } : Store).Coherent ∧
      ∃ v st', parse "func ( -> \x7b let : = 1 + ; f(, " { tag := 0 } = (.ok v, st') ∧
        ∀ front m later, v.descendants = front ++ m :: later → m.isMissing = true →
          ∃ t, later.find? View.isRead = some t ∧ t.kind ∉ m.kind.openers := by
  have hst : ({ tag := 0 } : Store).Coherent := Store.coherent_empty 0 {}
  have hrefusals : ((tokenize "func ( -> \x7b let : = 1 + ; f(, ").parsed.map
      fun y => y.nesting.refusals).toOption = some 0 := by
    decide +kernel
  obtain ⟨htotal, hneeded⟩ := parse_missing_needed hst "func ( -> \x7b let : = 1 + ; f(, "
  obtain ⟨v, st', hparse⟩ := htotal (by decide)
  obtain ⟨y, hparsed, hmissing, -⟩ := hneeded v st' hparse
  rw [hparsed] at hrefusals
  refine ⟨hst, v, st', hparse, fun front m later hsplit hm => ?_⟩
  obtain ⟨t, ht, hopeners⟩ := hmissing front m later hsplit hm
  exact ⟨t, ht, hopeners fun _ => Option.some.inj hrefusals⟩

end Verbatim
