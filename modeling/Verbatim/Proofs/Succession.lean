import Verbatim.Proofs.Scenes
import Verbatim.Proofs.Taking

/-!
# The succession of the tokens

The tokens of a tree can be listed in one go, or one can go from each token to the next one or to
the one before. Going on from a token means looking at the siblings behind it one by one, then at
those behind its parent, and so on up to the root. All the tokens behind a view are found in this
order, so that going from token to token passes through the listed tokens, in both directions.
-/

namespace Verbatim

namespace View

variable {r v u s t p : View}

section Children

/-- Placed one before another from where they end, slots hold what they hold placed one after
another, in reverse. -/
theorem placeBack_eq (parent : View) (index offset : Nat) (slots : List Slot) :
    placeBack parent (index + slots.length) (offset + Green.slotsWidth slots.reverse) slots =
      (inSlots parent index offset slots.reverse).reverse := by
  induction slots with
  | nil => rfl
  | cons slot slots ih =>
    rw [List.reverse_cons, inSlots_append, List.reverse_append, ← ih, List.length_reverse]
    cases slot with
    | none => simp [placeBack, inSlots, placeSlots, Green.slotsWidth]
    | some g =>
      have hwidth : offset + Green.slotsWidth (slots.reverse ++ [some g]) - g.width =
          offset + Green.slotsWidth slots.reverse := by
        simp only [Green.slotsWidth, sumOf_append, sumOf_cons, sumOf_nil, Option.elim_some]
        omega
      have hindex : index + (some g :: slots).length - 1 = index + slots.length := rfl
      rw [placeBack, hwidth, hindex]
      rfl

/-- The children of a genuine element from the back are its children in reverse. -/
theorem childrenBack_eq (hv : v.green.Genuine) : v.childrenBack = v.children.reverse := by
  have hback := placeBack_eq v 0 v.offset v.green.slots.reverse
  rw [List.reverse_reverse, List.length_reverse, Nat.zero_add] at hback
  rcases slots_eq_nil_or_stop_eq hv with hnil | hstop
  · rw [childrenBack, children, slots, hnil]
    rfl
  · rw [childrenBack, hstop]
    exact hback

/-- Around a view stand its siblings, and together they are the children of its parent. -/
theorem Placed.children_parent (hv : v.Placed) (hparent : v.parent? = some p) :
    p.children = v.siblingsBefore.reverse ++ v :: v.siblingsAfter := by
  cases v with
  | root store g => cases hparent
  | child parent index offset g =>
    obtain rfl : parent = p := Option.some.inj hparent
    obtain ⟨-, hslot, hoffset⟩ := placed_child.mp hv
    obtain ⟨hlt, hget⟩ := List.getElem?_eq_some_iff.mp hslot
    have hlength : (parent.green.slots.take index).length = index := by
      rw [List.length_take]
      omega
    have hbefore := placeBack_eq parent 0 parent.offset (parent.green.slots.take index).reverse
    rw [List.reverse_reverse, List.length_reverse, hlength, Nat.zero_add, ← hoffset] at hbefore
    have hchildren : parent.children = inSlots parent 0 parent.offset
        (parent.green.slots.take index ++ some g :: parent.green.slots.drop (index + 1)) := by
      rw [← hget, ← List.drop_eq_getElem_cons hlt, List.take_append_drop]
      rfl
    rw [hchildren, inSlots_append, hlength, ← hoffset, Nat.zero_add, siblingsBefore, hbefore,
      List.reverse_reverse]
    rfl

theorem index?_of_slot? {index : Nat} (h : v.slot? index = some u) : u.index? = some index := by
  rw [slot?_eq, Option.map_eq_some_iff] at h
  obtain ⟨g, -, rfl⟩ := h
  rfl

theorem parent?_of_mem_children (h : u ∈ v.children) : u.parent? = some v := by
  obtain ⟨index, hslot⟩ := mem_children.mp h
  rw [slot?_eq, Option.map_eq_some_iff] at hslot
  obtain ⟨g, -, rfl⟩ := hslot
  rfl

/-- No child is met twice, since each stands in a slot of its own. -/
theorem nodup_children (v : View) : v.children.Nodup := by
  rw [children_eq_filterMap, List.Nodup, List.pairwise_filterMap]
  refine List.pairwise_lt_range.imp ?_
  intro i j hlt a ha b hb hab
  have hindex := index?_of_slot? ha
  rw [hab, index?_of_slot? hb] at hindex
  exact Nat.ne_of_gt hlt (Option.some.inj hindex)

end Children

/-- A list without repetitions is split at a member in one way. -/
theorem split_unique {a b c d : List View} (hnodup : (a ++ t :: b).Nodup)
    (h : a ++ t :: b = c ++ t :: d) : a = c ∧ b = d := by
  have hnot : t ∉ a := fun ht => (List.nodup_append.mp hnodup).2.2 t ht t List.mem_cons_self rfl
  have hnot' : t ∉ c := fun ht => by
    rw [h] at hnodup
    exact (List.nodup_append.mp hnodup).2.2 t ht t List.mem_cons_self rfl
  induction a generalizing c with
  | nil =>
    cases c with
    | nil => exact ⟨rfl, (List.cons.inj h).2⟩
    | cons x c => exact absurd ((List.cons.inj h).1 ▸ List.mem_cons_self) hnot'
  | cons x a ih =>
    cases c with
    | nil => exact absurd ((List.cons.inj h).1 ▸ List.mem_cons_self) hnot
    | cons y c =>
      obtain ⟨rfl, hrest⟩ := List.cons.inj h
      obtain ⟨rfl, rfl⟩ := ih (List.nodup_cons.mp hnodup).2 hrest
        (fun ht => hnot (List.mem_cons_of_mem _ ht)) fun ht => hnot' (List.mem_cons_of_mem _ ht)
      exact ⟨rfl, rfl⟩

section Siblings

/-- Siblings are those that stand before and behind among the children. -/
theorem Placed.siblings_of_children {front back : List View} (hp : p.Placed)
    (h : p.children = front ++ s :: back) :
    s.Placed ∧ s.parent? = some p ∧ s.siblingsBefore = front.reverse ∧ s.siblingsAfter = back := by
  have hmem : s ∈ p.children := by simp [h]
  have hs : s.Placed := (Stands.of_mem_children ⟨hp, rfl⟩ hmem).placed
  have hparent := parent?_of_mem_children hmem
  have hsplit := hs.children_parent hparent
  have hnodup := nodup_children p
  rw [h] at hsplit hnodup
  obtain ⟨hfront, hback⟩ := split_unique hnodup hsplit
  exact ⟨hs, hparent, by rw [hfront, List.reverse_reverse], hback.symm⟩

/-- A view with siblings is one of the children of its parent. -/
theorem Placed.exists_parent (hv : v.Placed) (h : v.siblingsBefore ++ v.siblingsAfter ≠ []) :
    ∃ p, p.Placed ∧ v.parent? = some p ∧
      p.children = v.siblingsBefore.reverse ++ v :: v.siblingsAfter := by
  cases v with
  | root store g => exact absurd rfl h
  | child parent index offset g => exact ⟨parent, hv.1, rfl, hv.children_parent rfl⟩

/-- The search for the token next to a view: the nearest sibling is looked at, then the nearest
sibling of that one if it has no token, and the parent takes the place of the last of them. -/
inductive Search (sibling? token? : View → Option View) : View → Option View → Prop where
  | found {v s t : View} (hs : sibling? v = some s) (ht : token? s = some t) :
      Search sibling? token? v (some t)
  | pass {v s : View} {found? : Option View} (hs : sibling? v = some s) (ht : token? s = none)
      (h : Search sibling? token? s found?) : Search sibling? token? v found?
  | climb {v parent : View} {found? : Option View} (hs : sibling? v = none)
      (hparent : v.parent? = some parent) (h : Search sibling? token? parent found?) :
      Search sibling? token? v found?
  | out {v : View} (hs : sibling? v = none) (hparent : v.parent? = none) :
      Search sibling? token? v none

/-- Among the siblings the search finds the first token that one of them has, and otherwise what it
finds from the parent. -/
theorem Search.of_parent {sibling? token? : View → Option View} {siblings : View → List View}
    (hhead : ∀ v, sibling? v = (siblings v).head?)
    (hrest : ∀ {v s : View} {rest : List View}, v.Placed → siblings v = s :: rest →
      s.Placed ∧ s.parent? = v.parent? ∧ siblings s = rest)
    {found? : Option View} (h : Search sibling? token? p found?) (hv : v.Placed)
    (hparent : v.parent? = some p) :
    Search sibling? token? v (((siblings v).findSome? token?).or found?) := by
  -- Each sibling without tokens takes the place of the view, so the induction is on those left.
  generalize hsiblings : siblings v = views
  induction views generalizing v with
  | nil =>
    apply Search.climb _ hparent h
    rw [hhead, hsiblings]
    rfl
  | cons s rest ih =>
    have hs : sibling? v = some s := by rw [hhead, hsiblings]; rfl
    obtain ⟨hplaced, hsame, hleft⟩ := hrest hv hsiblings
    rw [List.findSome?_cons]
    cases htoken : token? s with
    | some t => exact .found hs htoken
    | none => exact .pass hs htoken (ih hplaced (hsame.trans hparent) hleft)

theorem nextToken?_child (parent : View) (index offset : Nat) (g : Green) :
    (child parent index offset g).nextToken? =
      ((child parent index offset g).siblingsAfter.findSome? firstTokenHere?).or
        parent.nextToken? := by
  rw [nextToken?]
  cases (child parent index offset g).siblingsAfter.findSome? firstTokenHere? <;> rfl

theorem prevToken?_child (parent : View) (index offset : Nat) (g : Green) :
    (child parent index offset g).prevToken? =
      ((child parent index offset g).siblingsBefore.findSome? lastTokenHere?).or
        parent.prevToken? := by
  rw [prevToken?]
  cases (child parent index offset g).siblingsBefore.findSome? lastTokenHere? <;> rfl

/-- The search forwards ends with the next token. -/
theorem Placed.search_nextToken? (hv : v.Placed) :
    Search nextSibling? firstTokenHere? v v.nextToken? := by
  induction v with
  | root store g => exact .out rfl rfl
  | child parent index offset g ih =>
    rw [nextToken?_child]
    refine Search.of_parent (fun _ => rfl) ?_ (ih hv.1) hv rfl
    intro v s rest hv hsiblings
    obtain ⟨p, hp, hparent, hchildren⟩ := hv.exists_parent (by simp [hsiblings])
    rw [hsiblings, List.append_cons] at hchildren
    obtain ⟨hs, hsame, -, hrest⟩ := hp.siblings_of_children hchildren
    exact ⟨hs, hsame.trans hparent.symm, hrest⟩

/-- The search backwards ends with the previous token. -/
theorem Placed.search_prevToken? (hv : v.Placed) :
    Search prevSibling? lastTokenHere? v v.prevToken? := by
  induction v with
  | root store g => exact .out rfl rfl
  | child parent index offset g ih =>
    rw [prevToken?_child]
    refine Search.of_parent (fun _ => rfl) ?_ (ih hv.1) hv rfl
    intro v s rest hv hsiblings
    obtain ⟨p, hp, hparent, hchildren⟩ := hv.exists_parent (by simp [hsiblings])
    rw [hsiblings, List.reverse_cons, List.append_assoc] at hchildren
    obtain ⟨hs, hsame, hrest, -⟩ := hp.siblings_of_children hchildren
    exact ⟨hs, hsame.trans hparent.symm, by rw [hrest, List.reverse_reverse]⟩

end Siblings

section Tokens

theorem firstToken?_eq (v : View) : v.firstToken? = v.children.findSome? firstTokenHere? := by
  rw [firstToken?]
  conv => rhs; rw [← List.attach_map_subtype_val v.children, List.findSome?_map]
  rfl

theorem lastToken?_eq (v : View) : v.lastToken? = v.childrenBack.findSome? lastTokenHere? := by
  rw [lastToken?]
  conv => rhs; rw [← List.attach_map_subtype_val v.childrenBack, List.findSome?_map]
  rfl

/-- A search gives what another one gives if they find the same in each of the views. -/
theorem findSome?_of_forall {views : List View} {f g : View → Option View}
    (h : ∀ c ∈ views, f c = g c) : views.findSome? f = views.findSome? g := by
  induction views with
  | nil => rfl
  | cons c views ih =>
    rw [List.findSome?_cons, List.findSome?_cons, h c List.mem_cons_self,
      ih fun d hd => h d (List.mem_cons_of_mem _ hd)]

/-- The first token found is the first of those listed. -/
theorem firstTokenHere?_eq (v : View) : v.firstTokenHere? = v.tokens.head? := by
  induction v using inductChildren with
  | h v ih =>
    rw [firstTokenHere?]
    cases hnode : v.isNode with
    | false => rw [tokens_of_not_isNode hnode]; rfl
    | true =>
      rw [if_pos rfl, firstToken?_eq, tokens_of_isNode hnode, List.head?_flatMap]
      exact findSome?_of_forall ih

/-- The last token found is the last of those listed. -/
theorem lastTokenHere?_eq (hv : v.green.Genuine) : v.lastTokenHere? = v.tokens.getLast? := by
  induction v using inductChildren with
  | h v ih =>
    rw [lastTokenHere?]
    cases hnode : v.isNode with
    | false => rw [tokens_of_not_isNode hnode]; rfl
    | true =>
      rw [if_pos rfl, lastToken?_eq, childrenBack_eq hv, tokens_of_isNode hnode,
        List.getLast?_flatMap]
      refine findSome?_of_forall fun c hc => ?_
      have hmem := List.mem_reverse.mp hc
      exact ih c hmem (genuine_of_mem_children hv hmem)

/-- The tokens behind a view in the order of the text. -/
def tokensAfter : View → List View
  | root .. => []
  | child parent index offset g =>
    (child parent index offset g).siblingsAfter.flatMap tokens ++ tokensAfter parent

/-- The tokens before a view in the order of the text. -/
def tokensBefore : View → List View
  | root .. => []
  | child parent index offset g =>
    tokensBefore parent ++ (child parent index offset g).siblingsBefore.reverse.flatMap tokens

/-- The next token is the first of those behind. -/
theorem nextToken?_eq (v : View) : v.nextToken? = v.tokensAfter.head? := by
  induction v with
  | root store g => rfl
  | child parent index offset g ih =>
    rw [nextToken?_child, tokensAfter, List.head?_append, List.head?_flatMap, ih,
      findSome?_of_forall fun c _ => firstTokenHere?_eq c]

/-- The previous token is the last of those before. -/
theorem Stands.prevToken?_eq (h : Stands r v) (hr : r.green.Genuine) :
    v.prevToken? = v.tokensBefore.getLast? := by
  induction v with
  | root store g => rfl
  | child parent index offset g ih =>
    rw [prevToken?_child, tokensBefore, List.getLast?_append, List.getLast?_flatMap,
      List.reverse_reverse, ih ⟨h.placed.1, h.top_eq⟩, findSome?_of_forall fun c hc =>
        lastTokenHere?_eq ((h.of_mem_siblingsBefore hc).genuine hr)]

/-- The tokens of a tree are those before a view, those of the view, and those behind it. -/
theorem Placed.tokens_top (hv : v.Placed) :
    v.top.tokens = v.tokensBefore ++ (v.tokens ++ v.tokensAfter) := by
  induction v with
  | root store g => exact (List.append_nil _).symm
  | child parent index offset g ih =>
    have hchildren := hv.children_parent rfl
    have hnode : parent.isNode = true :=
      Green.isNode_of_lt (List.getElem?_eq_some_iff.mp (placed_child.mp hv).2.1).1
    rw [top, ih hv.1, tokens_of_isNode hnode, hchildren, List.flatMap_append, List.flatMap_cons,
      tokensBefore, tokensAfter]
    simp only [List.append_assoc]

theorem nodup_tokens (v : View) : v.tokens.Nodup := by
  have hdescendants : (v.descendants.map path).Nodup := by
    rw [descendants_eq]
    exact nodup_path_entriesAt _ v v.green
  have hviews : v.descendants.Nodup :=
    List.Pairwise.of_map path (fun _ _ hne heq => hne (congrArg path heq)) hdescendants
  exact hviews.filter _

/-- From a token one gets to those that stand next to it among the tokens of the tree. -/
theorem neighbours_of_tokens {front back : List View} (hr : Stands r r) (hgenuine : r.green.Genuine)
    (h : r.tokens = front ++ t :: back) :
    t.nextToken? = back.head? ∧ t.prevToken? = front.getLast? := by
  have hmem : t ∈ r.tokens := by simp [h]
  obtain ⟨⟨path, hpath⟩, htoken⟩ := mem_tokens.mp hmem
  have ht : Stands r t := hr.of_descend? hpath
  have hsplit := ht.placed.tokens_top
  rw [ht.top_eq, tokens_of_not_isNode htoken, h] at hsplit
  -- No token is listed twice, so what stands before and behind it is what the climb finds.
  have hnodup := r.nodup_tokens
  rw [h] at hnodup
  obtain ⟨rfl, rfl⟩ := split_unique hnodup hsplit
  exact ⟨nextToken?_eq t, ht.prevToken?_eq hgenuine⟩

/-- What is met on a way from view to view until it ends. -/
inductive Trail (step : View → Option View) : Option View → List View → Prop where
  | stop : Trail step none []
  | go {v : View} {rest : List View} : Trail step (step v) rest → Trail step (some v) (v :: rest)

/-- Going from token to token one meets all the tokens that are left. -/
theorem trail_nextToken? {front back : List View} (hr : Stands r r) (hgenuine : r.green.Genuine)
    (h : r.tokens = front ++ back) : Trail nextToken? back.head? back := by
  induction back generalizing front with
  | nil => exact .stop
  | cons t back ih =>
    apply Trail.go
    rw [(neighbours_of_tokens hr hgenuine h).1]
    exact ih (h.trans (List.append_cons ..))

/-- Going back from token to token one meets all the tokens before. -/
theorem trail_prevToken? {front back : List View} (hr : Stands r r) (hgenuine : r.green.Genuine)
    (h : r.tokens = front.reverse ++ back) : Trail prevToken? front.head? front := by
  induction front generalizing back with
  | nil => exact .stop
  | cons t front ih =>
    rw [List.reverse_cons, List.append_assoc] at h
    apply Trail.go
    rw [(neighbours_of_tokens hr hgenuine h).2, List.getLast?_reverse]
    exact ih h

/-- A token is the next one of another just if that one is the previous one of it. -/
theorem nextToken?_eq_some_iff (hr : Stands r r) (hgenuine : r.green.Genuine) :
    (t ∈ r.tokens ∧ t.nextToken? = some u) ↔ (u ∈ r.tokens ∧ u.prevToken? = some t) := by
  constructor
  · rintro ⟨ht, hnext⟩
    obtain ⟨front, back, hsplit⟩ := List.append_of_mem ht
    rw [(neighbours_of_tokens hr hgenuine hsplit).1] at hnext
    obtain ⟨rest, rfl⟩ := List.head?_eq_some_iff.mp hnext
    refine ⟨by simp [hsplit], ?_⟩
    rw [List.append_cons] at hsplit
    rw [(neighbours_of_tokens hr hgenuine hsplit).2, List.getLast?_concat]
  · rintro ⟨hu, hprev⟩
    obtain ⟨front, back, hsplit⟩ := List.append_of_mem hu
    rw [(neighbours_of_tokens hr hgenuine hsplit).2] at hprev
    obtain ⟨rest, rfl⟩ := List.getLast?_eq_some_iff.mp hprev
    refine ⟨by simp [hsplit], ?_⟩
    rw [← List.append_cons] at hsplit
    rw [(neighbours_of_tokens hr hgenuine hsplit).1, List.head?_cons]

end Tokens

end View

namespace Workspace

variable {w : Workspace} {g : Green}

/-- The tree of `letb` with nodes around the keyword and the name, with a node without tokens behind
the keyword and once more between the two nodes, and with empty slots. -/
def hollow : Green :=
  let keyword : Green := .token ⟨⟨0, 0⟩, ⟨.letKw, .present, "let", [], []⟩⟩
  let empty : Green := .node ⟨⟨0, 1⟩, .nameExpr, .present, 0, false⟩ [none]
  let left : Green := .node ⟨⟨0, 2⟩, .letDecl, .present, 3, false⟩ [some keyword, some empty]
  let name : Green := .token ⟨⟨0, 3⟩, ⟨.ident, .present, "b", [], []⟩⟩
  let right : Green := .node ⟨⟨0, 4⟩, .nameExpr, .present, 1, false⟩ [none, some name]
  .node ⟨⟨0, 5⟩, .stmtList, .present, 4, false⟩ [some left, none, some empty, some right]

/-- Such a tree is in use in some workspace. -/
theorem exists_live_hollow : ∃ w : Workspace, w.Reachable ∧ w.Live hollow :=
  ⟨_, @Scene.reachable_ofTrees [hollow] rfl, Scene.live_of_found rfl⟩

/-- Take any tree that is in use in a workspace that can be reached. The walk over a view of it
finds the tokens that opening its nodes in place finds, and the first and the last token of a node
are the first and the last of these. Going from token to token from the first one until there is
none passes through all the tokens of the tree, and so does going back from the last one, in
reverse. A token is followed by another just if it comes before it. The token next to a token is
found by looking at siblings and climbing, whatever stands in between. -/
theorem Reachable.token_orders_agree (hw : w.Reachable) (hg : w.Live g) (hnode : g.isNode = true)
    (tag : Nat) :
    let r := View.root tag g
    (∀ v, r.Reaches v → v.tokens.map View.green = v.green.tokens.map Green.token ∧
      (v.isNode = true → v.firstToken? = v.tokens.head? ∧ v.lastToken? = v.tokens.getLast?)) ∧
    View.Trail View.nextToken? r.firstToken? r.tokens ∧
    View.Trail View.prevToken? r.lastToken? r.tokens.reverse ∧
    (∀ t u, (t ∈ r.tokens ∧ t.nextToken? = some u) ↔ (u ∈ r.tokens ∧ u.prevToken? = some t)) ∧
    ∀ t ∈ r.tokens, View.Search View.nextSibling? View.firstTokenHere? t t.nextToken? ∧
      View.Search View.prevSibling? View.lastTokenHere? t t.prevToken? := by
  intro r
  have hr : View.Stands r r := ⟨trivial, rfl⟩
  have hgenuine : r.green.Genuine := hw.genuine.of_live hg
  have hends : ∀ v : View, v.green.Genuine → v.isNode = true →
      v.firstToken? = v.tokens.head? ∧ v.lastToken? = v.tokens.getLast? := by
    intro v hv hnode
    rw [← v.firstTokenHere?_eq, ← View.lastTokenHere?_eq hv, View.firstTokenHere?,
      View.lastTokenHere?, if_pos hnode, if_pos hnode]
    exact ⟨rfl, rfl⟩
  obtain ⟨hfirst, hlast⟩ := hends r hgenuine hnode
  refine ⟨?_, ?_, ?_, ?_, ?_⟩
  · intro v hv
    exact ⟨v.map_green_tokens, hends v (hw.genuine_of_reaches hg hv)⟩
  · rw [hfirst]
    exact View.trail_nextToken? hr hgenuine (List.nil_append _).symm
  · rw [hlast, ← List.head?_reverse]
    apply View.trail_prevToken? hr hgenuine
    rw [List.reverse_reverse, List.append_nil]
  · intro t u
    exact View.nextToken?_eq_some_iff hr hgenuine
  · intro t ht
    obtain ⟨⟨path, hpath⟩, -⟩ := View.mem_tokens.mp ht
    have hplaced : t.Placed := (hr.of_descend? hpath).placed
    exact ⟨hplaced.search_nextToken?, hplaced.search_prevToken?⟩

/-- Between the keyword and the name of the hollow tree stand two nodes without tokens and two empty
slots. -/
theorem Reachable.token_orders_agree_hollow :
    ∃ (w : Workspace) (x y : View), w.Reachable ∧ w.Live hollow ∧ hollow.isNode = true ∧
      x.path = [0, 0] ∧ y.path = [3, 1] ∧ (View.root 0 hollow).tokens = [x, y] ∧
      View.Trail View.nextToken? (View.root 0 hollow).firstToken? [x, y] ∧
      View.Trail View.prevToken? (View.root 0 hollow).lastToken? [y, x] ∧
      View.Search View.nextSibling? View.firstTokenHere? x x.nextToken? := by
  obtain ⟨w, hw, hg⟩ := exists_live_hollow
  obtain ⟨-, hnext, hprev, -, hsearch⟩ := hw.token_orders_agree hg rfl 0
  have hpaths : (View.root 0 hollow).tokens.map View.path = [[0, 0], [3, 1]] := by
    rw [View.tokens, View.descendants_eq]
    decide +kernel
  obtain ⟨x, rest, htokens, hx, hrest⟩ := List.map_eq_cons_iff.mp hpaths
  obtain ⟨y, rest, rfl, hy, hnil⟩ := List.map_eq_cons_iff.mp hrest
  obtain rfl := List.map_eq_nil_iff.mp hnil
  rw [htokens] at hnext hprev
  have hmem : x ∈ (View.root 0 hollow).tokens := htokens ▸ List.mem_cons_self
  exact ⟨w, x, y, hw, hg, rfl, hx, hy, htokens, hnext, hprev, (hsearch x hmem).1⟩

end Workspace

end Verbatim
