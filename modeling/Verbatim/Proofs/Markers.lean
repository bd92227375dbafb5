import Verbatim.Proofs.Reporting
import Verbatim.Proofs.Representation

/-!
# Outermost markers

A marker is outermost below a view if it stands below the view and no other marker that stands there
is above it. The search for markers leaves out the parts that remember no error and does not go into
markers. In a tree of genuine elements it finds the outermost markers all the same, each of them
once, and it finds one just if the tree remembers an error.
-/

namespace Verbatim

namespace View

variable {v m a u : View}

/-- Whether a marker is outermost below a view. -/
def Outermost (v m : View) : Prop :=
  m ∈ v.descendants ∧ m.isMarker = true ∧
    ∀ a ∈ m.ancestors, a ≠ m → a ∈ v.descendants → a.isMarker = false

theorem self_mem_ancestors (v : View) : v ∈ v.ancestors := by
  cases v <;> exact List.mem_cons_self

/-- What is above the parent of a view is above the view. -/
theorem mem_ancestors_of_child {index offset : Nat} {g : Green}
    (h : child a index offset g ∈ m.ancestors) : a ∈ m.ancestors := by
  induction m with
  | root store g => cases List.mem_singleton.mp h
  | child parent index offset g ih =>
    rcases List.mem_cons.mp h with heq | h
    · cases heq
      exact List.mem_cons_of_mem _ a.self_mem_ancestors
    · exact List.mem_cons_of_mem _ (ih h)

/-- What a view is reached from by slots is above it. -/
theorem mem_ancestors_of_descend? {path : List Nat} (h : a.descend? path = some m) :
    a ∈ m.ancestors := by
  induction path generalizing a with
  | nil =>
    cases h
    exact m.self_mem_ancestors
  | cons index path ih =>
    obtain ⟨c, hc, hpath⟩ := Option.bind_eq_some_iff.mp h
    rw [slot?_eq] at hc
    obtain ⟨g, -, rfl⟩ := Option.map_eq_some_iff.mp hc
    exact mem_ancestors_of_child (ih hpath)

/-- The ancestors of a view are what it is reached from by slots. -/
theorem Placed.mem_ancestors (hm : m.Placed) :
    a ∈ m.ancestors ↔ ∃ path, a.descend? path = some m := by
  constructor
  · intro ha
    induction m with
    | root store g => exact ⟨[], congrArg some (List.mem_singleton.mp ha)⟩
    | child parent index offset g ih =>
      rcases List.mem_cons.mp ha with rfl | ha
      · exact ⟨[], rfl⟩
      · obtain ⟨path, hpath⟩ := ih hm.1 ha
        refine ⟨path ++ [index], ?_⟩
        rw [descend?_append, hpath, Option.bind_some, descend?, hm.2]
        rfl
  · rintro ⟨path, hpath⟩
    exact mem_ancestors_of_descend? hpath

/-- A marker is outermost if one gets to it without going through another. -/
theorem Placed.outermost_iff (hv : v.Placed) :
    v.Outermost m ↔ m.isMarker = true ∧ ∃ path, v.descend? path = some m ∧
      ∀ p q, path = p ++ q → q ≠ [] → ∀ a, v.descend? p = some a → a.isMarker = false := by
  constructor
  · rintro ⟨hm, hmarker, habove⟩
    obtain ⟨path, hpath⟩ := mem_descendants.mp hm
    refine ⟨hmarker, path, hpath, fun p q hsplit hq a ha => ?_⟩
    have hbelow : a.descend? q = some m := by
      rwa [hsplit, descend?_append, ha, Option.bind_some] at hpath
    refine habove a ?_ ?_ (mem_descendants.mpr ⟨p, ha⟩)
    · exact (hv.of_descend? hpath).1.mem_ancestors.mpr ⟨q, hbelow⟩
    · rintro rfl
      exact hq (List.self_eq_append_right.mp (path_of_descend? hbelow))
  · rintro ⟨hmarker, path, hpath, hway⟩
    refine ⟨mem_descendants.mpr ⟨path, hpath⟩, hmarker, fun a ha hne hbelow => ?_⟩
    obtain ⟨p, hp⟩ := mem_descendants.mp hbelow
    obtain ⟨q, hq⟩ := (hv.of_descend? hpath).1.mem_ancestors.mp ha
    refine hway p q ?_ ?_ a hp
    · have hpaths := path_of_descend? hpath
      rw [path_of_descend? hq, path_of_descend? hp, List.append_assoc] at hpaths
      exact (List.append_cancel_left hpaths).symm
    · rintro rfl
      exact hne (Option.some.inj hq)

/-- Whether the search for markers does not go into a view. -/
def isShut (d : View) : Bool := !d.hasError || d.isMarker

theorem hasError_of_isMarker (h : v.green.Genuine) (hmarker : v.isMarker = true) :
    v.hasError = true := h.hasError_iff.mpr ⟨v.green, .refl, hmarker⟩

/-- The outermost markers are those that are entered when one does not go into shut views. -/
theorem Placed.outermost_iff_mem (hv : v.Placed) (hg : v.green.Genuine) :
    v.Outermost m ↔ m ∈ (entriesAt isShut v v.green).filter isMarker := by
  rw [hv.outermost_iff, List.mem_filter, mem_entriesAt, and_comm]
  refine and_congr_left fun hmarker => exists_congr fun path => and_congr_right fun hpath => ?_
  refine forall_congr' fun p => forall_congr' fun q => forall_congr' fun hsplit =>
    forall_congr' fun hq => forall_congr' fun a => forall_congr' fun ha => ?_
  have hbelow : a.descend? q = some m := by
    rwa [hsplit, descend?_append, ha, Option.bind_some] at hpath
  have herror : a.hasError = true :=
    (hg.of_within (within_of_descend? ha)).hasError_iff.mpr
      ⟨m.green, within_of_descend? hbelow, hmarker⟩
  rw [isShut, herror]
  rfl

/-- The markers that are found among what is entered. -/
def markersOf (entered : List View) : List View := (entered.filter isNode).flatMap markersAt

theorem markersOf_append (a b : List View) : markersOf (a ++ b) = markersOf a ++ markersOf b := by
  simp [markersOf]

/-- The placeholders among the tokens that some slots hold. -/
def placeholdersIn (parent : View) (index offset : Nat) (slots : List Slot) : List View :=
  ((placeSlots parent index offset slots).filterMap fun slot => slot).filter fun c =>
    !c.isNode && c.isMissing

/-- The search brings up the markers among slots, placeholders of tokens before all others. -/
theorem perm_markersOf_entriesIn (parent : View) (index offset : Nat) {slots : List Slot}
    (h : ∀ g, some g ∈ slots → ∀ v : View, v.green = g → v.isNode = true →
      (markersOf (entriesAt isShut v g)).Perm ((entriesAt isShut v g).filter isMarker)) :
    (placeholdersIn parent index offset slots ++
        markersOf (entriesIn isShut parent index offset slots)).Perm
      ((entriesIn isShut parent index offset slots).filter isMarker) := by
  induction slots generalizing index offset with
  | nil => exact .nil
  | cons slot slots ih =>
    have htail (index offset : Nat) := ih index offset fun g hg => h g (List.mem_cons_of_mem _ hg)
    cases slot with
    | none => exact htail (index + 1) offset
    | some g =>
      have hrest := htail (index + 1) (offset + g.width)
      rw [entriesIn, markersOf_append, List.filter_append]
      cases g with
      | token t =>
        have hnode : (child parent index offset (.token t)).isNode = false := rfl
        cases hmissing : (child parent index offset (.token t)).isMissing <;>
          simpa [placeholdersIn, placeSlots, entriesAt, markersOf, isMarker, hnode, hmissing]
            using hrest
      | node head below =>
        have hnode : (child parent index offset (.node head below)).isNode = true := rfl
        have hchild :=
          h _ List.mem_cons_self (child parent index offset (.node head below)) rfl hnode
        have hplaceholders : placeholdersIn parent index offset (some (.node head below) :: slots) =
            placeholdersIn parent (index + 1) (offset + (Green.node head below).width) slots := by
          simp [placeholdersIn, placeSlots, hnode]
        rw [hplaceholders]
        exact (List.perm_append_comm_assoc ..).trans (hchild.append hrest)

/-- The search for markers brings up, in another order, those that are entered when one does not go
into shut views. -/
theorem perm_markers (hg : v.green.Genuine) (hnode : v.isNode = true) :
    v.markers.Perm ((entriesAt isShut v v.green).filter isMarker) := by
  have hmarkers : v.markers = markersOf (entriesAt isShut v v.green) := markers_eq v
  rw [hmarkers]
  clear hmarkers
  generalize hgreen : v.green = g at hg ⊢
  induction g using Green.induct generalizing v with
  | token t => simp [isNode, hgreen, Green.isNode] at hnode
  | node head slots ih =>
    have herror := hasError_of_isMarker (hgreen ▸ hg)
    have hfound (rest : List View) : markersOf (v :: rest) = v.markersAt ++ markersOf rest := by
      simp [markersOf, hnode]
    rw [entriesAt, hfound, markersAt]
    cases hmarker : v.isMarker with
    | true => simp [isShut, hmarker, herror hmarker, markersOf]
    | false =>
      cases hopen : v.hasError with
      | false => simp [isShut, hmarker, hopen, markersOf]
      | true =>
        have hslots := perm_markersOf_entriesIn v 0 v.offset fun g hmem u hu hnode =>
          ih g hmem hnode hu (hg.genuineAll_slots g hmem)
        simpa [isShut, hmarker, hopen, placeholdersIn, children, View.slots, hgreen, Green.slots]
          using hslots

/-- The outermost markers are found. -/
theorem Placed.mem_markers (hv : v.Placed) (hg : v.green.Genuine) (hnode : v.isNode = true) :
    m ∈ v.markers ↔ v.Outermost m := by
  rw [(perm_markers hg hnode).mem_iff, hv.outermost_iff_mem hg]

/-- No place is found twice. -/
theorem nodup_path_markers (hg : v.green.Genuine) (hnode : v.isNode = true) :
    (v.markers.map path).Nodup := by
  have hentries := nodup_path_entriesAt isShut v v.green
  rw [((perm_markers hg hnode).map path).nodup_iff]
  exact hentries.sublist (List.filter_sublist.map path)

theorem Placed.outermost_self (hv : v.Placed) (hmarker : v.isMarker = true) : v.Outermost v := by
  refine hv.outermost_iff.mpr ⟨hmarker, [], rfl, fun p q hsplit hq => absurd ?_ hq⟩
  exact (List.append_eq_nil_iff.mp hsplit.symm).2

/-- On the way to a marker one meets a marker that is outermost. -/
theorem exists_outermost_of_descend? {path : List Nat} (hv : v.Placed)
    (h : v.descend? path = some m) (hmarker : m.isMarker = true) : ∃ u, v.Outermost u := by
  induction path generalizing v with
  | nil =>
    obtain rfl := Option.some.inj h
    exact ⟨v, hv.outermost_self hmarker⟩
  | cons index path ih =>
    obtain ⟨c, hc, hpath⟩ := Option.bind_eq_some_iff.mp h
    have hfirst := descend?_cons_of_slot hc
    cases hself : v.isMarker with
    | true => exact ⟨v, hv.outermost_self hself⟩
    | false =>
      have hplaced : c.Placed := (hv.of_descend? (hfirst [])).1
      obtain ⟨u, hu⟩ := ih hplaced hpath
      obtain ⟨humarker, below, hbelow, hway⟩ := hplaced.outermost_iff.mp hu
      refine ⟨u, hv.outermost_iff.mpr ⟨humarker, index :: below, (hfirst below).trans hbelow, ?_⟩⟩
      intro p q hsplit hq a ha
      cases p with
      | nil =>
        cases ha
        exact hself
      | cons i p =>
        obtain ⟨rfl, rfl⟩ := List.cons.inj hsplit
        exact hway p q rfl hq a ((hfirst p).symm.trans ha)

/-- No marker is found just if no error is remembered. -/
theorem Placed.markers_eq_nil_iff (hv : v.Placed) (hg : v.green.Genuine) (hnode : v.isNode = true) :
    v.markers = [] ↔ v.hasError = false := by
  constructor
  · intro hnil
    refine Bool.eq_false_iff.mpr fun herror => ?_
    obtain ⟨x, hx, hmarker⟩ := hg.hasError_iff.mp herror
    obtain ⟨path, d, hd, rfl⟩ := exists_descend?_of_within hx
    obtain ⟨m, hm⟩ := exists_outermost_of_descend? hv hd hmarker
    have hfound := (hv.mem_markers hg hnode).mpr hm
    rw [hnil] at hfound
    cases hfound
  · intro hclean
    refine List.eq_nil_iff_forall_not_mem.mpr fun m hm => ?_
    obtain ⟨hbelow, hmarker, -⟩ := (hv.mem_markers hg hnode).mp hm
    obtain ⟨path, hpath⟩ := mem_descendants.mp hbelow
    have herror : v.hasError = true :=
      hg.hasError_iff.mpr ⟨m.green, within_of_descend? hpath, hmarker⟩
    rw [hclean] at herror
    cases herror

end View

end Verbatim
