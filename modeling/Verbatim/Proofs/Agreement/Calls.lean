import Verbatim.Proofs.Agreement.Building

/-!
# Agreement of calls

Calls with the same value, made at any two sites, both fail for the same reason, or what comes out
has the same value. No element that a call makes and that is not to be shared was there before.
-/

namespace Verbatim

namespace Call

/-- The elements of an outcome that the call has asked its store for. -/
def Made : Call Green View Builder → Handle → Green → Prop
  | token _, h, g | punctuation _, h, g | missingToken _, h, g | missingNode _, h, g
  | missing _, h, g | node .., h, g | unexpected _, h, g | replaceSlot .., h, g
  | spliceSlots .., h, g => h.element? = some g
  -- The whole tree of a text is made for it.
  | parse _, h, g => g.InUse h.trees
  -- An edit makes the ancestors anew, and the node that it is asked to edit.
  | replaceChild .., h, g => g ∈ h.trees
  | replaceWith .., h, g => g ∈ h.trees.tail
  -- What a builder has made stands in the slot that was filled last.
  | step .., h, g => ∃ b, h.builder? = some b ∧ b.filled.head? = some (some g)
  | build, _, _ | finish _, _, _ => False

end Call

open Alloc

/-- Handles that match after two calls, and what each of these has made is new. -/
structure OutcomesMatch (a b : Call Green View Builder) (e e' : Site) (h : Handle) (f : Site)
    (h' : Handle) (f' : Site) : Prop extends HandlesMatch h f h' f' where
  new_left : ∀ g, a.Made h g → e.New g
  new_right : ∀ g, b.Made h' g → e'.New g

section Matching

variable {e e' : Site}

theorem matchesAll_of_values {slots slots' : List Slot}
    (h : slots.map (Option.map Green.value) = slots'.map (Option.map Green.value))
    (hleft : ∀ g ∈ slots.filterMap fun slot => slot, e.Knows g)
    (hright : ∀ g ∈ slots'.filterMap fun slot => slot, e'.Knows g) :
    MatchesAll slots e slots' e' where
  values_eq := by rw [Green.values_eq, Green.values_eq, h]
  left g hg := hleft g (List.mem_filterMap.mpr ⟨some g, hg, rfl⟩)
  right g hg := hright g (List.mem_filterMap.mpr ⟨some g, hg, rfl⟩)

theorem matchesAll_singleton {slot slot' : Slot}
    (h : slot.map Green.value = slot'.map Green.value) (hleft : ∀ g ∈ slot.toList, e.Knows g)
    (hright : ∀ g ∈ slot'.toList, e'.Knows g) : MatchesAll [slot] e [slot'] e' := by
  refine matchesAll_of_values (by rw [List.map_singleton, List.map_singleton, h]) ?_ ?_
  · cases slot <;> exact hleft
  · cases slot' <;> exact hright

/-- An element that comes out of two calls that made it. -/
theorem Twins.outcomesMatch {a b : Call Green View Builder} {g g' : Green} {f f' : Site}
    (hg : Twins e e' g f g' f') (ha : ∀ x, a.Made (.green g) x → x = g)
    (hb : ∀ x, b.Made (.green g') x → x = g') :
    OutcomesMatch a b e e' (.green g) f (.green g') f' where
  value_eq := congrArg Handle.green hg.value_eq
  left _ hx := List.mem_singleton.mp hx ▸ hg.left
  right _ hx := List.mem_singleton.mp hx ▸ hg.right
  new_left x hx := ha x hx ▸ hg.new_left
  new_right x hx := hb x hx ▸ hg.new_right

end Matching

namespace Call

variable {e e' : Site}

theorem agree_act {a b : Call Green View Builder} (hvalue : a.value = b.value)
    (ha : ∀ g ∈ a.trees, e.Knows g) (hb : ∀ g ∈ b.trees, e'.Knows g) :
    Agree a.act b.act e e' (OutcomesMatch a b e e') := by
  have hmade {g x : Green} (h : (Handle.green g).element? = some x) : x = g :=
    (Option.some.inj h).symm
  cases a with
  | token data =>
    cases b with
    | token data' =>
      cases hvalue
      exact (agree_makeToken data).bind fun _ _ _ _ _ _ h =>
        .pure (h.outcomesMatch (fun _ => hmade) fun _ => hmade)
    | _ => cases hvalue
  | punctuation kind =>
    cases b with
    | punctuation kind' =>
      cases hvalue
      exact (agree_punctuation kind).bind fun _ _ _ _ _ _ h =>
        .pure (h.outcomesMatch (fun _ => hmade) fun _ => hmade)
    | _ => cases hvalue
  | missingToken kind =>
    cases b with
    | missingToken kind' =>
      cases hvalue
      exact (agree_makeToken _).bind fun _ _ _ _ _ _ h =>
        .pure (h.outcomesMatch (fun _ => hmade) fun _ => hmade)
    | _ => cases hvalue
  | missingNode kind =>
    cases b with
    | missingNode kind' =>
      cases hvalue
      exact (agree_missingNode kind).map fun _ _ _ _ h =>
        h.1.outcomesMatch (fun _ => hmade) fun _ => hmade
    | _ => cases hvalue
  | missing kind =>
    cases b with
    | missing kind' =>
      cases hvalue
      exact (agree_missing kind).map fun _ _ _ _ h =>
        h.1.outcomesMatch (fun _ => hmade) fun _ => hmade
    | _ => cases hvalue
  | node kind slots =>
    cases b with
    | node kind' slots' =>
      obtain ⟨rfl, hslots⟩ := Call.node.inj hvalue
      exact (agree_allocNode kind .present (matchesAll_of_values hslots ha hb)).map
        fun _ _ _ _ h => h.1.outcomesMatch (fun _ => hmade) fun _ => hmade
    | _ => cases hvalue
  | unexpected elements =>
    cases b with
    | unexpected elements' =>
      have helements := Call.unexpected.inj hvalue
      have hslots : MatchesAll (elements.map some) e (elements'.map some) e' := by
        refine matchesAll_of_values ?_ (by simpa [trees] using ha) (by simpa [trees] using hb)
        simpa [Function.comp_def] using congrArg (List.map some) helements
      exact (agree_allocNode .unexpected .present hslots).map
        fun _ _ _ _ h => h.1.outcomesMatch (fun _ => hmade) fun _ => hmade
    | _ => cases hvalue
  | replaceSlot g index slot =>
    cases b with
    | replaceSlot g' index' slot' =>
      obtain ⟨hg, rfl, hslot⟩ := Call.replaceSlot.inj hvalue
      have hg : Matches g e g' e' := ⟨hg, ha g List.mem_cons_self, hb g' List.mem_cons_self⟩
      have hslot := matchesAll_singleton hslot (fun x hx => ha x (List.mem_cons_of_mem _ hx))
        fun x hx => hb x (List.mem_cons_of_mem _ hx)
      exact (Green.agree_replaceSlot hg index hslot).map fun _ _ _ _ h =>
        h.outcomesMatch (fun _ => hmade) fun _ => hmade
    | _ => cases hvalue
  | spliceSlots g start stop replacement =>
    cases b with
    | spliceSlots g' start' stop' replacement' =>
      obtain ⟨hg, rfl, rfl, hslots⟩ := Call.spliceSlots.inj hvalue
      have hg : Matches g e g' e' := ⟨hg, ha g List.mem_cons_self, hb g' List.mem_cons_self⟩
      have hslots := matchesAll_of_values hslots (fun x hx => ha x (List.mem_cons_of_mem _ hx))
        fun x hx => hb x (List.mem_cons_of_mem _ hx)
      exact (Green.agree_spliceSlots hg start stop hslots).map fun _ _ _ _ h =>
        h.outcomesMatch (fun _ => hmade) fun _ => hmade
    | _ => cases hvalue
  | parse text =>
    cases b with
    | parse text' =>
      cases hvalue
      refine (agree_parse text).map fun v v' f f' h => ?_
      obtain ⟨g, g', rfl, rfl, hg, hnew, hnew'⟩ := h
      refine ⟨⟨?_, ?_, ?_⟩, ?_, ?_⟩
      · simp only [Handle.value, View.value, hg.value_eq]
      · exact fun x hx => List.mem_singleton.mp hx ▸ hg.left
      · exact fun x hx => List.mem_singleton.mp hx ▸ hg.right
      · rintro x ⟨root, hroot, hx⟩
        obtain rfl : root = g := List.mem_singleton.mp hroot
        exact hnew x hx
      · rintro x ⟨root, hroot, hx⟩
        obtain rfl : root = g' := List.mem_singleton.mp hroot
        exact hnew' x hx
    | _ => cases hvalue
  | replaceChild v index slot =>
    cases b with
    | replaceChild v' index' slot' =>
      obtain ⟨hv, rfl, hslot⟩ := Call.replaceChild.inj hvalue
      have hv : HandlesMatch (.view v) e (.view v') e' := ⟨congrArg Handle.view hv,
        fun x hx => ha x (List.mem_append_left _ hx), fun x hx => hb x (List.mem_append_left _ hx)⟩
      have hslot := matchesAll_singleton hslot (fun x hx => ha x (List.mem_append_right _ hx))
        fun x hx => hb x (List.mem_append_right _ hx)
      exact (View.agree_replaceSlot hv index hslot).map fun _ _ _ _ hout =>
        ⟨hout.1, hout.2.1, hout.2.2⟩
    | _ => cases hvalue
  | replaceWith v g =>
    cases b with
    | replaceWith v' g' =>
      obtain ⟨hv, hg⟩ := Call.replaceWith.inj hvalue
      have hv : HandlesMatch (.view v) e (.view v') e' := ⟨congrArg Handle.view hv,
        fun x hx => ha x (List.mem_append_left _ hx), fun x hx => hb x (List.mem_append_left _ hx)⟩
      have hg : Matches g e g' e' :=
        ⟨hg, ha g (List.mem_append_right _ List.mem_cons_self),
          hb g' (List.mem_append_right _ List.mem_cons_self)⟩
      exact (View.agree_replaceWith hv hg).map fun _ _ _ _ hout =>
        ⟨hout.1, hout.2.1.new, hout.2.2.new⟩
    | _ => cases hvalue
  | build =>
    cases b with
    | build =>
      refine .get (.pure ⟨⟨rfl, fun g hg => ?_, fun g hg => ?_⟩, fun _ h => ?_, fun _ h => ?_⟩)
      · cases hg
      · cases hg
      · exact h.elim
      · exact h.elim
    | _ => cases hvalue
  | step builder s =>
    cases b with
    | step builder' s' =>
      obtain ⟨hbuilder, rfl⟩ := Call.step.inj hvalue
      have hbuilder : HandlesMatch (.builder 0 builder) e (.builder 0 builder') e' :=
        ⟨congrArg (Handle.builder 0) hbuilder, ha, hb⟩
      refine .get ((Builder.agree_step hbuilder s).bind fun c c' f f' _ _ hc =>
        .pure ⟨⟨hc.handles.value_eq, hc.handles.left, hc.handles.right⟩, ?_, ?_⟩)
      · rintro g ⟨_, ⟨⟩, hg⟩
        exact hc.left.newest g hg
      · rintro g ⟨_, ⟨⟩, hg⟩
        exact hc.right.newest g hg
    | _ => cases hvalue
  | finish builder =>
    cases b with
    | finish builder' =>
      have hbuilder : HandlesMatch (.builder 0 builder) e (.builder 0 builder') e' :=
        ⟨congrArg (Handle.builder 0) (Call.finish.inj hvalue), ha, hb⟩
      refine (Builder.agree_root hbuilder).map fun g g' f f' hout =>
        ⟨⟨congrArg Handle.green hout.1.value_eq, ?_, ?_⟩, fun _ h => h.elim, fun _ h => h.elim⟩
      · exact fun x hx => List.mem_singleton.mp hx ▸ hout.1.left
      · exact fun x hx => List.mem_singleton.mp hx ▸ hout.1.right
    | _ => cases hvalue

end Call

end Verbatim
