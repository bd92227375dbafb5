import Verbatim.Proofs.Sites
import Verbatim.Proofs.Value
import Verbatim.Proofs.Within

/-!
# Agreement of two runs

Two runs of a call agree if both fail for the same reason, or what comes out is equal by value. The
runs may be made in different stores, of which each has its own past. Tokens and nodes that are
asked for with the same values come out with the same values, and so does everything that is put
together from them, up to parsing and editing.
-/

namespace Verbatim

/-- Elements at two sites that are known there and have the same value. -/
structure Matches (g : Green) (e : Site) (g' : Green) (e' : Site) : Prop where
  value_eq : g.value = g'.value
  left : e.Knows g
  right : e'.Knows g'

/-- Slots at two sites that hold the same values, all of them known there. -/
structure MatchesAll (slots : List Slot) (e : Site) (slots' : List Slot) (e' : Site) : Prop where
  values_eq : Green.values slots = Green.values slots'
  left : e.KnowsAll slots
  right : e'.KnowsAll slots'

/-- Elements that match after a run, of which none is old if it is not to be shared. -/
structure Twins (e e' : Site) (g : Green) (f : Site) (g' : Green) (f' : Site) : Prop
    extends Matches g f g' f' where
  new_left : e.New g
  new_right : e'.New g'

section

variable {e e' f f' : Site}

/-- Slots that match go on to do so while the stores are used. -/
theorem MatchesAll.mono {slots slots' : List Slot} (h : MatchesAll slots e slots' e')
    (hf : e.Evolves f) (hf' : e'.Evolves f') : MatchesAll slots f slots' f' :=
  ⟨h.values_eq, h.left.mono hf, h.right.mono hf'⟩

/-- Twins of a later part of a run are twins of the run. -/
theorem Twins.of_evolves {h h' : Site} {g g' : Green} (hg : Twins f f' g h g' h')
    (hf : e.Evolves f) (hf' : e'.Evolves f') : Twins e e' g h g' h' :=
  ⟨hg.toMatches, hg.new_left.of_evolves hf, hg.new_right.of_evolves hf'⟩

namespace MatchesAll

theorem nil : MatchesAll [] e [] e' := ⟨rfl, nofun, nofun⟩

theorem cons_none {slots slots' : List Slot} (h : MatchesAll slots e slots' e') :
    MatchesAll (none :: slots) e (none :: slots') e' where
  values_eq := by rw [Green.values, Green.values, h.values_eq]
  left c hc := h.left c (by simpa using hc)
  right c hc := h.right c (by simpa using hc)

/-- Elements that match may be put in front of slots that do. -/
theorem cons_some {g g' : Green} {slots slots' : List Slot} (hg : Matches g e g' e')
    (h : MatchesAll slots e slots' e') : MatchesAll (some g :: slots) e (some g' :: slots') e' where
  values_eq := by rw [Green.values, Green.values, hg.value_eq, h.values_eq]
  left c hc := by
    rcases List.mem_cons.mp hc with hc | hc
    · exact Option.some.inj hc ▸ hg.left
    · exact h.left c hc
  right c hc := by
    rcases List.mem_cons.mp hc with hc | hc
    · exact Option.some.inj hc ▸ hg.right
    · exact h.right c hc

variable {slots slots' : List Slot}

/-- Slots that match are empty together, or there is a first on both sides. -/
theorem eq_nil_or_exists_cons (h : MatchesAll slots e slots' e') :
    slots = [] ∧ slots' = [] ∨
      ∃ s rest s' rest', slots = s :: rest ∧ slots' = s' :: rest' ∧
        MatchesAll [s] e [s'] e' ∧ MatchesAll rest e rest' e' := by
  obtain ⟨hvalues, hleft, hright⟩ := h
  have hlength := Green.length_eq_of_values hvalues
  rcases slots with _ | ⟨s, rest⟩ <;> rcases slots' with _ | ⟨s', rest'⟩
  · exact .inl ⟨rfl, rfl⟩
  · cases hlength
  · cases hlength
  · refine .inr ⟨s, rest, s', rest', rfl, rfl, ⟨?_, ?_, ?_⟩, ?_, ?_, ?_⟩
    · rw [Green.values_eq, Green.values_eq, List.map_cons, List.map_cons] at hvalues
      rw [Green.values_eq, Green.values_eq, List.map_cons, List.map_cons,
        (List.cons.inj hvalues).1]
    · exact fun c hc => hleft c (List.mem_singleton.mp hc ▸ List.mem_cons_self)
    · exact fun c hc => hright c (List.mem_singleton.mp hc ▸ List.mem_cons_self)
    · rw [Green.values_eq, Green.values_eq, List.map_cons, List.map_cons] at hvalues
      rw [Green.values_eq, Green.values_eq, (List.cons.inj hvalues).2]
    · exact fun c hc => hleft c (List.mem_cons_of_mem _ hc)
    · exact fun c hc => hright c (List.mem_cons_of_mem _ hc)

/-- Matching slots are both empty, or hold elements that match. -/
theorem singleton_cases {s s' : Slot} (h : MatchesAll [s] e [s'] e') :
    s = none ∧ s' = none ∨ ∃ g g', s = some g ∧ s' = some g' ∧ Matches g e g' e' := by
  obtain ⟨hvalues, hleft, hright⟩ := h
  rcases s with _ | g <;> rcases s' with _ | g'
  · exact .inl ⟨rfl, rfl⟩
  · cases hvalues
  · cases hvalues
  · exact .inr ⟨g, g', rfl, rfl, Option.some.inj (List.cons.inj hvalues).1,
      hleft g List.mem_cons_self, hright g' List.mem_cons_self⟩

/-- Empty slots match empty slots. -/
theorem replicate_none (n : Nat) :
    MatchesAll (List.replicate n none) e (List.replicate n none) e' :=
  ⟨rfl, fun c hc => by simp at hc, fun c hc => by simp at hc⟩

/-- What one slot holds, if anything, matches as a list of slots. -/
theorem toList {slot slot' : Slot} (h : MatchesAll [slot] e [slot'] e') :
    MatchesAll (slot.toList.map some) e (slot'.toList.map some) e' := by
  rcases h.singleton_cases with ⟨rfl, rfl⟩ | ⟨c, c', rfl, rfl, -⟩
  · exact .nil
  · exact h

/-- Slots that match may be put after one another. -/
theorem append {more more' : List Slot} (h : MatchesAll slots e slots' e')
    (hmore : MatchesAll more e more' e') : MatchesAll (slots ++ more) e (slots' ++ more') e' where
  values_eq := by rw [Green.values_append, Green.values_append, h.values_eq, hmore.values_eq]
  left c hc := (List.mem_append.mp hc).elim (h.left c) (hmore.left c)
  right c hc := (List.mem_append.mp hc).elim (h.right c) (hmore.right c)

/-- A part of the slots that is taken in the same way on both sides matches. -/
theorem part {p : {α : Type} → List α → List α} (h : MatchesAll slots e slots' e')
    (hmap : ∀ {α β : Type} (f : α → β) (l : List α), (p l).map f = p (l.map f))
    (hmem : ∀ {α : Type} {a : α} {l : List α}, a ∈ p l → a ∈ l) :
    MatchesAll (p slots) e (p slots') e' where
  values_eq := by
    have hvalues := h.values_eq
    rw [Green.values_eq, Green.values_eq] at hvalues ⊢
    rw [hmap, hmap, hvalues]
  left c hc := h.left c (hmem hc)
  right c hc := h.right c (hmem hc)

/-- The first slots of slots that match do so, too. -/
theorem take (h : MatchesAll slots e slots' e') (n : Nat) :
    MatchesAll (slots.take n) e (slots'.take n) e' :=
  h.part (p := fun l => l.take n) (fun _ _ => List.map_take) List.mem_of_mem_take

/-- So do the last ones. -/
theorem drop (h : MatchesAll slots e slots' e') (n : Nat) :
    MatchesAll (slots.drop n) e (slots'.drop n) e' :=
  h.part (p := fun l => l.drop n) (fun _ _ => List.map_drop) List.mem_of_mem_drop

theorem reverse (h : MatchesAll slots e slots' e') :
    MatchesAll slots.reverse e slots'.reverse e' :=
  h.part (p := List.reverse) (fun _ _ => List.map_reverse) List.mem_reverse.mp

/-- Slots that match may take the same place in others that do. -/
theorem set {s s' : Slot} (h : MatchesAll slots e slots' e') (hs : MatchesAll [s] e [s'] e')
    (n : Nat) : MatchesAll (slots.set n s) e (slots'.set n s') e' where
  values_eq := by
    have hvalues := h.values_eq
    have hvalue := hs.values_eq
    simp only [Green.values_eq, List.map_set, List.map_cons, List.map_nil] at hvalues hvalue ⊢
    rw [hvalues, (List.cons.inj hvalue).1]
  left c hc := (List.mem_or_eq_of_mem_set hc).elim (h.left c) fun heq =>
    hs.left c (heq ▸ List.mem_cons_self)
  right c hc := (List.mem_or_eq_of_mem_set hc).elim (h.right c) fun heq =>
    hs.right c (heq ▸ List.mem_cons_self)

end MatchesAll

namespace Matches

variable {g g' : Green} (h : Matches g e g' e')

include h

/-- Elements that match have the same kind. -/
theorem kind_eq : g.kind = g'.kind := by simpa using congrArg Green.kind h.value_eq

theorem presence_eq : g.presence = g'.presence := by
  simpa using congrArg Green.presence h.value_eq

/-- Elements that match are placeholders at the same time. -/
theorem isMissing_eq : g.isMissing = g'.isMissing := by
  simpa using congrArg Green.isMissing h.value_eq

/-- What stands in the slots of elements that match matches, too. -/
theorem slots : MatchesAll g.slots e g'.slots e' where
  values_eq := by rw [← Green.slots_value, ← Green.slots_value, h.value_eq]
  left _ hc := h.left.of_within (.of_slot hc)
  right _ hc := h.right.of_within (.of_slot hc)

/-- Elements that match have the same number of slots. -/
theorem length_slots_eq : g.slots.length = g'.slots.length :=
  Green.length_eq_of_values h.slots.values_eq

end Matches

end

namespace Alloc

/-- Two runs that both fail for the same reason, or that give what is good. -/
def Agree {α β : Type} (x : Alloc α) (y : Alloc β) (e e' : Site)
    (good : α → Site → β → Site → Prop) : Prop :=
  ∃ f f', e.Evolves f ∧ e'.Evolves f' ∧
    ((∃ fault, x e.store = (.error fault, f.store) ∧ y e'.store = (.error fault, f'.store)) ∨
      ∃ a b, x e.store = (.ok a, f.store) ∧ y e'.store = (.ok b, f'.store) ∧ good a f b f')

section Rules

variable {α β γ δ : Type} {x : Alloc α} {y : Alloc β} {k : α → Alloc γ} {k' : β → Alloc δ}
  {e e' : Site} {good : α → Site → β → Site → Prop} {better : γ → Site → δ → Site → Prop}

/-- Runs that agree, one after the other. -/
theorem Agree.bind (h : Agree x y e e' good)
    (hk : ∀ a b f f', e.Evolves f → e'.Evolves f' → good a f b f' →
      Agree (k a) (k' b) f f' better) :
    Agree (x >>= k) (y >>= k') e e' better := by
  obtain ⟨f, f', hf, hf', ⟨fault, hx, hy⟩ | ⟨a, b, hx, hy, hgood⟩⟩ := h
  · exact ⟨f, f', hf, hf', .inl ⟨fault, bind_eq_of_error hx, bind_eq_of_error hy⟩⟩
  · obtain ⟨h, h', hh, hh', hout⟩ := hk a b f f' hf hf' hgood
    refine ⟨h, h', hf.trans hh, hf'.trans hh', ?_⟩
    rwa [bind_eq_of_ok hx, bind_eq_of_ok hy]

/-- Giving back what is good does nothing to the stores. -/
theorem Agree.pure {a : α} {b : β} (h : good a e b e') : Agree (pure a) (pure b) e e' good :=
  ⟨e, e', .refl e, .refl e', .inr ⟨a, b, rfl, rfl, h⟩⟩

/-- Two runs agree that fail for the same reason. -/
theorem Agree.throw (fault : Fault) : Agree (throw fault : Alloc α) (throw fault : Alloc β) e e'
    good :=
  ⟨e, e', .refl e, .refl e', .inl ⟨fault, rfl, rfl⟩⟩

/-- What is known of the outcomes may be weakened. -/
theorem Agree.mono {fine : α → Site → β → Site → Prop} (h : Agree x y e e' good)
    (hfine : ∀ a f b f', good a f b f' → fine a f b f') : Agree x y e e' fine := by
  obtain ⟨f, f', hf, hf', hfault | ⟨a, b, hx, hy, hgood⟩⟩ := h
  · exact ⟨f, f', hf, hf', .inl hfault⟩
  · exact ⟨f, f', hf, hf', .inr ⟨a, b, hx, hy, hfine a f b f' hgood⟩⟩

/-- What is made of the results of runs that agree. -/
theorem Agree.map {f : α → γ} {f' : β → δ} (h : Agree x y e e' good)
    (hf : ∀ a b h h', good a h b h' → better (f a) h (f' b) h') :
    Agree (f <$> x) (f' <$> y) e e' better := by
  obtain ⟨h, h', hh, hh', ⟨fault, hx, hy⟩ | ⟨a, b, hx, hy, hgood⟩⟩ := h
  · exact ⟨h, h', hh, hh', .inl ⟨fault, map_eq_of_error hx, map_eq_of_error hy⟩⟩
  · exact ⟨h, h', hh, hh', .inr ⟨_, _, map_eq_of_ok hx, map_eq_of_ok hy, hf a b h h' hgood⟩⟩

/-- Looking at the stores first. -/
theorem Agree.get {k : Store → Alloc γ} {k' : Store → Alloc δ}
    (h : Agree (k e.store) (k' e'.store) e e' better) :
    Agree (get >>= k) (get >>= k') e e' better :=
  h

/-- A condition that holds on both sides or on none, with the same fault if it fails. -/
theorem Agree.guard {c c' : Prop} [Decidable c] [Decidable c'] {fault fault' : Fault}
    {l : PUnit → Alloc α} {l' : PUnit → Alloc β} (hc : c ↔ c') (hfault : fault = fault')
    (h : Agree x y e e' good) :
    Agree (if c then x else Bind.bind (MonadExcept.throw fault) l)
      (if c' then y else Bind.bind (MonadExcept.throw fault') l') e e' good := by
  subst hfault
  by_cases h' : c
  · rwa [if_pos h', if_pos (hc.mp h')]
  · rw [if_neg h', if_neg (h' ∘ hc.mpr)]
    exact ⟨e, e', .refl e, .refl e', .inl ⟨fault, rfl, rfl⟩⟩

end Rules

section Elements

variable {e e' : Site}

/-- Tokens with the same content. -/
theorem agree_makeToken (d : TokenData) :
    Agree (makeToken d) (makeToken d) e e' fun t f t' f' =>
      Twins e e' (.token t) f (.token t') f' := by
  obtain ⟨f, hf, hout⟩ := makeToken_outcome e d
  obtain ⟨f', hf', hout'⟩ := makeToken_outcome e' d
  refine ⟨f, f', hf, hf', ?_⟩
  rcases hout with ⟨fault, haccept, hrun⟩ | ⟨t, haccept, hrun, hdata, hknows, hnew⟩
  · rcases hout' with ⟨fault', haccept', hrun'⟩ | ⟨t', haccept', -⟩
    · cases haccept.symm.trans haccept'
      exact .inl ⟨fault, hrun, hrun'⟩
    · cases haccept.symm.trans haccept'
  · rcases hout' with ⟨fault', haccept', -⟩ | ⟨t', haccept', hrun', hdata', hknows', hnew'⟩
    · cases haccept.symm.trans haccept'
    · refine .inr ⟨t, t', hrun, hrun', ⟨?_, hknows, hknows'⟩, hnew, hnew'⟩
      rw [Green.value, Green.value, hdata, hdata']

/-- Nodes whose slots hold the same values. -/
theorem agree_allocNode (kind : Kind) (presence : Presence) {slots slots' : List Slot}
    (h : MatchesAll slots e slots' e') :
    Agree (allocNode kind presence slots) (allocNode kind presence slots') e e' fun g f g' f' =>
      Twins e e' g f g' f' ∧ g.slots = slots ∧ g'.slots = slots' := by
  obtain ⟨f, hf, hout⟩ := allocNode_outcome kind presence h.left
  obtain ⟨f', hf', hout'⟩ := allocNode_outcome kind presence h.right
  have hwidth := Green.slotsWidth_eq_of_values h.values_eq
  refine ⟨f, f', hf, hf', ?_⟩
  rcases hout with ⟨hwide, hrun⟩ | ⟨g, hfits, hrun, hg, hfresh⟩
  · rcases hout' with ⟨-, hrun'⟩ | ⟨g', hfits', -⟩
    · exact .inl ⟨_, hrun, hrun'⟩
    · omega
  · rcases hout' with ⟨hwide', -⟩ | ⟨g', -, hrun', hg', hfresh'⟩
    · omega
    · obtain ⟨id, rfl⟩ := hg.eq
      obtain ⟨id', rfl⟩ := hg'.eq
      refine .inr ⟨_, _, hrun, hrun', ⟨⟨?_, hg.knows, hg'.knows⟩, hfresh, hfresh'⟩, rfl, rfl⟩
      simp only [Green.value, hwidth, Green.errorOf_eq_of_values kind presence h.values_eq,
        h.values_eq]

/-- Placeholders of the same kind; there is nothing in their slots. -/
theorem agree_missingNode (kind : Kind) :
    Agree (missingNode kind) (missingNode kind) e e' fun g f g' f' =>
      Twins e e' g f g' f' ∧ g.children = [] ∧ g'.children = [] := by
  refine .guard .rfl rfl ((agree_allocNode kind .missing (.replicate_none _)).mono
    fun g f g' f' ⟨hg, hslots, hslots'⟩ => ⟨hg, ?_, ?_⟩)
  · simp [Green.children, hslots]
  · simp [Green.children, hslots']

/-- A placeholder of either sort comes out with the same value, and holds nothing. -/
theorem agree_missing (kind : Kind) :
    Agree (missing kind) (missing kind) e e' fun g f g' f' =>
      Twins e e' g f g' f' ∧ g.children = [] ∧ g'.children = [] := by
  unfold missing
  split
  · exact (agree_makeToken _).map fun _ _ _ _ h => ⟨h, rfl, rfl⟩
  · exact agree_missingNode kind

/-- A token that is spelled the only way its kind can be comes out with the same value. -/
theorem agree_punctuation (kind : Kind) :
    Agree (punctuation kind) (punctuation kind) e e' fun t f t' f' =>
      Twins e e' (.token t) f (.token t') f' := by
  unfold punctuation
  split
  · exact agree_makeToken _
  · exact .throw _

end Elements

end Alloc

namespace Green

open Alloc

variable {e e' : Site} {g g' : Green}

/-- Splicing matching elements into matching collections gives the same value. -/
theorem agree_spliceSlots (hg : Matches g e g' e') (start stop : Nat)
    {replacement replacement' : List Slot}
    (hreplacement : MatchesAll replacement e replacement' e') :
    Agree (g.spliceSlots start stop replacement) (g'.spliceSlots start stop replacement') e e'
      (Twins e e') := by
  have hkinds := map_eq_of_values kind_value hreplacement.values_eq
  have hmembers (members : KindSet) (slots : List Slot) :
      (slots.all fun slot => slot.any fun c => members.contains c.kind) =
        (slots.map fun slot => slot.map kind).all fun k => k.any members.contains := by
    rw [List.all_map]
    congr 1
    funext slot
    cases slot <;> rfl
  have hnode := (agree_allocNode g.kind .present (((hg.slots.take start).append
    hreplacement).append (hg.slots.drop stop))).mono fun _ _ _ _ h => h.1
  unfold spliceSlots
  rw [← hg.kind_eq, ← hg.length_slots_eq]
  refine .guard .rfl rfl ?_
  split
  · refine .guard ?_ rfl hnode
    rw [hmembers, hmembers, hkinds]
  · exact hnode

/-- A slot is filled in with the same value, or stays as it is in both runs. -/
theorem agree_fillSlot (spec : Option SlotSpec) {slot slot' : Slot}
    (h : MatchesAll [slot] e [slot'] e') :
    Agree (fillSlot spec slot) (fillSlot spec slot') e e' fun s f s' f' =>
      MatchesAll [s] f [s'] f' := by
  rcases h.singleton_cases with ⟨rfl, rfl⟩ | ⟨c, c', rfl, rfl, -⟩
  · rcases spec with _ | spec
    · exact .pure h
    · unfold fillSlot
      dsimp only
      split
      · exact .pure h
      · exact (agree_missing _).map fun _ _ _ _ hc => .cons_some hc.1.toMatches .nil
  · exact .pure h

/-- All required slots are filled in with the same values. -/
theorem agree_fillRequired (specs : List SlotSpec) {slots slots' : List Slot}
    (h : MatchesAll slots e slots' e') :
    Agree (fillRequired specs slots) (fillRequired specs slots') e e' MatchesAll := by
  induction specs generalizing e e' slots slots' with
  | nil =>
    simp only [fillRequired]
    exact .pure h
  | cons spec specs ih =>
    rcases h.eq_nil_or_exists_cons with ⟨rfl, rfl⟩ | ⟨s, rest, s', rest', rfl, rfl, hs, hrest⟩
    · exact .pure h
    · rw [fillRequired, fillRequired]
      refine (agree_fillSlot (some spec) hs).bind fun a a' f f' hf hf' ha => ?_
      refine (ih (hrest.mono hf hf')).bind fun filled filled' h h' hh hh' hfilled => .pure ?_
      exact (ha.mono hh hh').append hfilled

/-- Replacing a slot of matching elements gives the same value. -/
theorem agree_replaceSlot (hg : Matches g e g' e') (index : Nat) {slot slot' : Slot}
    (hslot : MatchesAll [slot] e [slot'] e') :
    Agree (g.replaceSlot index slot) (g'.replaceSlot index slot') e e' (Twins e e') := by
  unfold replaceSlot
  rw [← hg.kind_eq, ← hg.length_slots_eq, ← hg.isMissing_eq, ← hg.presence_eq]
  refine .guard .rfl rfl ?_
  dsimp only
  split
  · exact agree_spliceSlots hg _ _ hslot.toList
  · refine (agree_fillSlot _ hslot).bind fun s s' f f' hf hf' hs => ?_
    have hpresent : (s.any fun c => !c.isMissing) = s'.any fun c => !c.isMissing := by
      rcases hs.singleton_cases with ⟨rfl, rfl⟩ | ⟨c, c', rfl, rfl, hc⟩
      · rfl
      · simp [hc.isMissing_eq]
    have hslots := hg.slots.mono hf hf'
    rw [← hpresent]
    split
    · refine (agree_fillRequired _ hslots).bind fun filled filled' h h' hh hh' hfilled => ?_
      exact (agree_allocNode g.kind .present (hfilled.set (hs.mono hh hh') index)).mono
        fun _ _ _ _ ha => ha.1.of_evolves (hf.trans hh) (hf'.trans hh')
    · exact (agree_allocNode g.kind g.presence (hslots.set hs index)).mono
        fun _ _ _ _ ha => ha.1.of_evolves hf hf'

end Green

/-- Handles at two sites that have the same value, and of which everything is known there. -/
structure HandlesMatch (h : Handle) (e : Site) (h' : Handle) (e' : Site) : Prop where
  value_eq : h.value = h'.value
  left : ∀ g ∈ h.trees, e.Knows g
  right : ∀ g ∈ h'.trees, e'.Knows g

/-- Handles that match go on to do so while the stores are used. -/
theorem HandlesMatch.mono {h h' : Handle} {e e' f f' : Site} (hh : HandlesMatch h e h' e')
    (hf : e.Evolves f) (hf' : e'.Evolves f') : HandlesMatch h f h' f' :=
  ⟨hh.value_eq, fun g hg => (hh.left g hg).mono hf, fun g hg => (hh.right g hg).mono hf'⟩

namespace View

open Alloc

variable {e e' : Site}

/-- Views that match are roots together, or children in the same place of views that match. -/
theorem cases_of_match {v v' : View} (h : HandlesMatch (.view v) e (.view v') e') :
    Matches v.green e v'.green e' ∧
      ((∃ store g store' g', v = .root store g ∧ v' = .root store' g') ∨
        ∃ p p' index offset g g', v = .child p index offset g ∧ v' = .child p' index offset g' ∧
          HandlesMatch (.view p) e (.view p') e') := by
  obtain ⟨hvalue, hleft, hright⟩ := h
  have hself (u : View) : u.green ∈ Handle.trees (.view u) := by cases u <;> simp [Handle.trees,
    ancestors]
  have hvalue : v.value = v'.value := Handle.view.inj hvalue
  refine ⟨⟨by simpa using congrArg green hvalue, hleft _ (hself v), hright _ (hself v')⟩, ?_⟩
  cases v with
  | root store g =>
    cases v' with
    | root store' g' => exact .inl ⟨store, g, store', g', rfl, rfl⟩
    | child p' index' offset' g' => cases hvalue
  | child p index offset g =>
    cases v' with
    | root store' g' => cases hvalue
    | child p' index' offset' g' =>
      simp only [value, child.injEq] at hvalue
      obtain ⟨hp, rfl, rfl, -⟩ := hvalue
      refine .inr ⟨p, p', index, offset, g, g', rfl, rfl, congrArg Handle.view hp, ?_, ?_⟩
      · exact fun c hc => hleft c (List.mem_cons_of_mem _ hc)
      · exact fun c hc => hright c (List.mem_cons_of_mem _ hc)

/-- A view of an element whose ancestors were made anew. -/
structure Raised (e : Site) (g : Green) (v : View) : Prop where
  green_eq : v.green = g
  new : ∀ x ∈ (v.ancestors.map green).tail, e.New x

theorem ancestors_map_green (v : View) :
    v.ancestors.map green = v.green :: (v.ancestors.map green).tail := by
  cases v <;> rfl

/-- An element in place of a view, whose parent was made anew after the ancestors of the parent. -/
theorem Raised.child {e f : Site} {p : View} {c g : Green} {i o : Nat} (hf : e.Evolves f)
    (hc : e.New c) (hp : Raised f c p) : Raised e g (.child p i o g) where
  green_eq := rfl
  new x hx := by
    have hx : x ∈ p.ancestors.map green := hx
    rw [ancestors_map_green, hp.green_eq] at hx
    rcases List.mem_cons.mp hx with rfl | hx
    · exact hc
    · exact (hp.new x hx).of_evolves hf

/-- Putting matching elements in the place of matching views gives views that match. -/
theorem agree_replaceWith {v v' : View} (hv : HandlesMatch (.view v) e (.view v') e')
    {g g' : Green} (hg : Matches g e g' e') :
    Agree (v.replaceWith g) (v'.replaceWith g') e e' fun u f u' f' =>
      HandlesMatch (.view u) f (.view u') f' ∧ Raised e g u ∧ Raised e' g' u' := by
  induction v generalizing e e' v' g g' with
  | root store old =>
    rcases (cases_of_match hv).2 with ⟨_, _, store', old', -, rfl⟩ | ⟨_, _, _, _, _, _, h, -⟩
    · refine .get (.pure ⟨⟨?_, ?_, ?_⟩, ⟨rfl, ?_⟩, rfl, ?_⟩)
      · simp only [Handle.value, value, hg.value_eq]
      · simpa [Handle.trees, ancestors, green] using hg.left
      · simpa [Handle.trees, ancestors, green] using hg.right
      · exact fun _ h => by cases h
      · exact fun _ h => by cases h
    · cases h
  | child p index offset old ih =>
    rcases (cases_of_match hv).2 with ⟨_, _, _, _, h, -⟩ | ⟨_, p', _, _, _, old', h, rfl, hp⟩
    · cases h
    · -- The parents are edited alike, and then what is above them.
      cases h
      rw [replaceWith, replaceWith]
      have hslot : MatchesAll [some g] e [some g'] e' := .cons_some hg .nil
      refine (Green.agree_replaceSlot (cases_of_match hp).1 index hslot).bind
        fun c c' f f' hf hf' hc => ?_
      refine (ih (hp.mono hf hf') hc.toMatches).bind fun u u' h h' hh hh' hout => ?_
      obtain ⟨hu, hraised, hraised'⟩ := hout
      refine .pure ⟨⟨?_, ?_, ?_⟩, ?_, ?_⟩
      · have hu := Handle.view.inj hu.value_eq
        simp only [Handle.value, value, hg.value_eq, hu]
      · intro x hx
        rcases List.mem_cons.mp hx with rfl | hx
        · exact hg.left.mono (hf.trans hh)
        · exact hu.left x hx
      · intro x hx
        rcases List.mem_cons.mp hx with rfl | hx
        · exact hg.right.mono (hf'.trans hh')
        · exact hu.right x hx
      · exact .child hf hc.new_left hraised
      · exact .child hf' hc.new_right hraised'

/-- Replacing a slot of matching views gives views that match, of elements that are new. -/
theorem agree_replaceSlot {v v' : View} (hv : HandlesMatch (.view v) e (.view v') e') (index : Nat)
    {slot slot' : Slot} (hslot : MatchesAll [slot] e [slot'] e') :
    Agree (v.replaceSlot index slot) (v'.replaceSlot index slot') e e' fun u f u' f' =>
      HandlesMatch (.view u) f (.view u') f' ∧ (∀ x ∈ u.ancestors.map green, e.New x) ∧
        ∀ x ∈ u'.ancestors.map green, e'.New x := by
  have hall {e f : Site} {c : Green} {u : View} (hf : e.Evolves f) (hc : e.New c)
      (hu : Raised f c u) : ∀ x ∈ u.ancestors.map green, e.New x :=
    (Raised.child (i := 0) (o := 0) (g := c) hf hc hu).new
  refine (Green.agree_replaceSlot (cases_of_match hv).1 index hslot).bind
    fun c c' f f' hf hf' hc => ?_
  exact (agree_replaceWith (hv.mono hf hf') hc.toMatches).mono
    fun u h u' h' ⟨hu, hraised, hraised'⟩ =>
      ⟨hu, hall hf hc.new_left hraised, hall hf' hc.new_right hraised'⟩

end View

end Verbatim
