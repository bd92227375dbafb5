import Verbatim.Proofs.Scenes

/-!
# Sharing

A store that shares tokens never has two elements with the same value, as far as it shares them:
elements that were made by it, with all that is within them, and none of whose nodes is too large to
be shared. For them being equal by value and being the same is one. A node that is too large to be
shared is always made anew.
-/

namespace Verbatim

/-- Whether an element was made by a store with all that is within it, and nothing of it is too
large to be shared. -/
def Store.Owns (s : Store) (g : Green) : Prop :=
  ∀ x : Green, x.Within g → x.id.store = s.tag ∧ x.slots.length ≤ s.config.maxSharedSlots

theorem Store.Owns.of_slot {s : Store} {c g : Green} (h : s.Owns g) (hc : some c ∈ g.slots) :
    s.Owns c := fun x hx => h x (.slot hc hx)

namespace Workspace

variable {w : Workspace} {r : Registry} {s : Store} {a b : Green}

/-- What a store shares is determined by its value. -/
theorem Sound.eq_of_value_eq (h : w.Sound r) (hs : s ∈ w.stores)
    (htokens : s.config.sharesTokens = true) (ha : r.Knows a) (hb : r.Knows b) (hown : s.Owns a)
    (hown' : s.Owns b) (hvalue : a.value = b.value) : a = b := by
  have hshares {g : Green} (hg : r.Knows g) (hown : s.Owns g) : s.Shares g :=
    h.shares s hs hg (hown g .refl).1
  induction a using Green.induct generalizing b with
  | token t =>
    cases b with
    | token u =>
      simp only [Green.value, Green.token.injEq, GreenToken.mk.injEq, true_and] at hvalue
      have ht : s.tokens[t.data]? = some t := hshares ha hown htokens
      have hu : s.tokens[u.data]? = some u := hshares hb hown' htokens
      rw [← hvalue, ht] at hu
      exact congrArg Green.token (Option.some.inj hu)
    | node head slots => cases hvalue
  | node head slots ih =>
    cases b with
    | token u => cases hvalue
    | node head' slots' =>
      simp only [Green.value, Green.node.injEq, NodeHead.mk.injEq, true_and] at hvalue
      obtain ⟨⟨hkind, hpresence, -, -⟩, hslots⟩ := hvalue
      -- What stands in the slots is the same, so both nodes are shared under one key.
      obtain rfl : slots = slots' := Green.eq_of_values_eq (fun g hg g' hg' hvalue =>
        ih g hg (r.find_slot ha hg) (r.find_slot hb hg') (hown.of_slot hg) (hown'.of_slot hg')
          hvalue) hslots
      have hnode := hshares ha hown (hown _ .refl).2
      have hnode' := hshares hb hown' (hown' _ .refl).2
      rw [← hkind, ← hpresence, hnode] at hnode'
      exact Option.some.inj hnode'

/-- In every workspace that can be reached, live elements that a store shares are equal by value
just if they are the same, and a call never gives an element for a node that it makes and that is
too large to be shared. -/
theorem Reachable.sameValue_iff_same (hw : w.Reachable) (hs : s ∈ w.stores) :
    (s.config.sharesTokens = true → ∀ a b : Green, w.Live a → w.Live b → s.Owns a → s.Owns b →
        (a.sameValue b = true ↔ a.same b = true)) ∧
      ∀ (call : Call Green View Builder) (name? : Option String) (handle : Handle),
        (∀ g ∈ call.trees, g.InUse w.trees) → (w.perform s call name?).1 = .ok handle →
        ∀ g, call.Made handle g → s.config.maxSharedSlots < g.slots.length →
          ∀ x, w.Live x → x.same g = false := by
  obtain ⟨r, h⟩ := hw.exists_sound
  constructor
  · intro htokens a b ha hb hown hown'
    have ha := h.knows ha
    have hb := h.knows hb
    constructor
    · intro hsame
      have hvalue := Green.value_eq_of_sameValue ha hb hsame
      obtain rfl := h.eq_of_value_eq hs htokens ha hb hown hown' hvalue
      exact beq_self_eq_true _
    · intro hsame
      obtain rfl := ha.eq_of_id hb (beq_iff_eq.mp hsame)
      exact Green.sameValue_of_value_eq rfl
  · intro call name? handle hcall hok g hmade hlarge x hx
    obtain ⟨f, -, ⟨fault, hrun⟩ | ⟨handle', hrun, -, hfresh⟩⟩ := h.act_outcome hs hcall
    · rw [perform_eq_of_error hrun] at hok
      cases hok
    · rw [perform_eq_of_ok hrun] at hok
      cases hok
      have hnone : r.find g.id = none := hfresh g hmade hlarge
      refine beq_false_of_ne fun hid => ?_
      have hknows := h.knows hx
      rw [Registry.Knows, hid, hnone] at hknows
      cases hknows

open Scene

/-- In a store that has made two placeholders, which are held, a third is made that has more slots
than the store shares. -/
theorem Reachable.sameValue_iff_same_placeholders :
    ∃ (w : Workspace) (s : Store) (a b : Green) (handle : Handle) (g : Green),
      w.Reachable ∧ s ∈ w.stores ∧ s.config.sharesTokens = true ∧ w.Live a ∧ w.Live b ∧
        s.Owns a ∧ s.Owns b ∧ (a.sameValue b = true ↔ a.same b = true) ∧
        (w.perform s (.missingNode .funcDecl) none).1 = .ok handle ∧
        (Call.missingNode .funcDecl).Made handle g ∧
        s.config.maxSharedSlots < g.slots.length ∧ a.same g = false ∧ b.same g = false := by
  let key (kind : Kind) : NodeKey := .ofSlots kind .missing [none]
  let s₁ : Store := { tag := 0, issued := 1, nodes := {(key .typeName, hole 0 .typeName)} }
  let s₂ : Store := { s₁ with
    issued := 2, nodes := s₁.nodes.insert (key .exprStmt) (hole 1 .exprStmt) }
  have hact₁ : (Call.missingNode .typeName).act { tag := 0 } =
      (.ok (.green (hole 0 .typeName)), s₁) :=
    Alloc.map_eq_of_ok (Alloc.missingNode_eq_small (by decide) (by decide) (by simp))
  have hact₂ : (Call.missingNode .exprStmt).act s₁ = (.ok (.green (hole 1 .exprStmt)), s₂) :=
    Alloc.map_eq_of_ok (Alloc.missingNode_eq_small (by decide) (by decide)
      (by simp [s₁, key, NodeKey.ofSlots]))
  have hact₃ : (Call.missingNode .funcDecl).act s₂ = (.ok (.green (hole 2 .funcDecl)), _) :=
    Alloc.map_eq_of_ok (Alloc.missingNode_eq_large (by decide) (by decide))
  have hw := reachable_of_ok (c := ⟨{ tag := 0 }, []⟩) (.ofStore "store" {}) _ (inUse_of_found rfl)
    hact₁
  let w := workspace ⟨s₂, [.green (hole 1 .exprStmt), .green (hole 0 .typeName)]⟩
  have hw : w.Reachable := reachable_of_ok hw _ (inUse_of_found rfl) hact₂
  have hs : s₂ ∈ w.stores := store_mem _
  have ha : w.Live (hole 0 .typeName) := live_of_found rfl
  have hb : w.Live (hole 1 .exprStmt) := live_of_found rfl
  have howns {x : Green}
      (h : (parts x).all (fun y => y.id.store == 0 && y.slots.length ≤ 3) = true) : s₂.Owns x :=
    fun y hy => by simpa using of_within h hy
  have hperform : (w.perform s₂ (.missingNode .funcDecl) none).1 =
      .ok (.green (hole 2 .funcDecl)) :=
    congrArg Prod.fst (perform_eq_of_ok hact₃ none)
  obtain ⟨hsame, hfresh⟩ := hw.sameValue_iff_same hs
  have hfresh := hfresh _ none _ (by simp [Call.trees]) hperform _ rfl (by decide)
  exact ⟨w, s₂, hole 0 .typeName, hole 1 .exprStmt, _, _, hw, hs, rfl, ha, hb, howns (by decide),
    howns (by decide), hsame rfl _ _ ha hb (howns (by decide)) (howns (by decide)), hperform, rfl,
    by decide, hfresh _ ha, hfresh _ hb⟩

end Workspace

end Verbatim
