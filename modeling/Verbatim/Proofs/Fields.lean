import Verbatim.Facade
import Verbatim.Proofs.Legality
import Verbatim.Proofs.Scenes
import Verbatim.Proofs.Succession

/-!
# Fields

A node is read by its fields, and each field expects something of the slot that it is read from.
What the layout of a kind declares for its slots is always what the fields expect. So nothing in a
valid tree is lost to a reader who goes by the fields: they give just what stands in the slots. A
list gives all members, from both ends and by their numbers.
-/

namespace Verbatim

/-- Whether elements of a kind can be read as a field of this type. -/
def FieldType.suits : FieldType → Kind → Bool
  | token, k => k.isToken
  | node facade, k => k.isNode && facade.accepts k
  | list member, k => k.isNode && k.layout.members?.any fun members =>
      members.toList.all fun k => k.isNode && member.accepts k
  | members, _ => false

/-- What a field gives to its reader, one by one. -/
def FieldValue.occupants : FieldValue → List View
  | token t => [t]
  | node _ n => [n]
  | list l => [l.collection.view]
  | members c => c.members

theorem KindSet.mem_toList {s : KindSet} {k : Kind} : k ∈ s.toList ↔ s.contains k = true := by
  rw [toList, List.mem_filter]
  exact and_iff_right (List.mem_of_getElem? k.getElem?_all_number)

namespace Kind

/-- Whether there is one field for each slot of a kind, and it can be read whatever the slot
accepts. -/
def fieldsFit (k : Kind) : Bool :=
  k.fields.map (·.index) == List.range k.slotSpecs.length &&
    (k.fields.zip k.slotSpecs).all fun (field, spec) => spec.accepts.toList.all field.type.suits

/-- A node with a name to be read under has a field for each of its slots, or a single field for all
its members. -/
theorem fields_cases {k : Kind} (h : k.facadeName?.isSome = true) :
    (∃ specs, k.layout = .fixed specs ∧ k.fieldsFit = true) ∨
      ∃ members name, k.layout = .collection members ∧ k.fields = [⟨name, 0, .members⟩] := by
  cases k with
  | unexpected => exact .inr ⟨_, _, rfl, rfl⟩
  | _ => first | exact absurd h (by decide) | exact .inl ⟨_, rfl, by decide⟩

/-- A kind that can be read as one of a family can be read under its own name, too. -/
theorem isSome_facadeName? {k : Kind} (h : Facade.namesFor k ≠ []) :
    k.facadeName?.isSome = true := by
  cases k <;> first | rfl | exact absurd rfl h

variable {k : Kind} (hfit : k.fieldsFit = true)

include hfit

theorem map_index_fields : k.fields.map (·.index) = List.range k.slotSpecs.length := by
  rw [fieldsFit, Bool.and_eq_true] at hfit
  exact beq_iff_eq.mp hfit.1

theorem length_fields : k.fields.length = k.slotSpecs.length := by
  rw [← List.length_map (f := (·.index)), map_index_fields hfit, List.length_range]

theorem exists_field {index : Nat} {spec : SlotSpec} (hspec : k.slotSpecs[index]? = some spec) :
    ∃ field, k.fields[index]? = some field :=
  ⟨_, List.getElem?_eq_getElem (length_fields hfit ▸ (List.getElem?_eq_some_iff.mp hspec).1)⟩

theorem exists_slotSpec {index : Nat} {field : Field} (hfield : k.fields[index]? = some field) :
    ∃ spec, k.slotSpecs[index]? = some spec :=
  ⟨_, List.getElem?_eq_getElem (length_fields hfit ▸ (List.getElem?_eq_some_iff.mp hfield).1)⟩

/-- Each field is read from the slot in its place. -/
theorem index_field {index : Nat} {field : Field} (hfield : k.fields[index]? = some field) :
    field.index = index := by
  have hlt : index < k.slotSpecs.length :=
    length_fields hfit ▸ (List.getElem?_eq_some_iff.mp hfield).1
  have hindex := congrArg (·[index]?) (map_index_fields hfit)
  simp only [List.getElem?_map, hfield, List.getElem?_range hlt, Option.map_some] at hindex
  exact Option.some.inj hindex

theorem suits_of_accepts {index : Nat} {field : Field} {spec : SlotSpec} {member : Kind}
    (hfield : k.fields[index]? = some field) (hspec : k.slotSpecs[index]? = some spec)
    (haccepts : spec.accepts.contains member = true) : field.type.suits member = true := by
  rw [fieldsFit, Bool.and_eq_true] at hfit
  have hzip : (field, spec) ∈ k.fields.zip k.slotSpecs := by
    refine List.mem_of_getElem? (i := index) ?_
    rw [List.getElem?_zip_eq_some]
    exact ⟨hfield, hspec⟩
  exact List.all_eq_true.mp (List.all_eq_true.mp hfit.2 _ hzip) _ (KindSet.mem_toList.mpr haccepts)

end Kind

namespace View

/-- Whether a view shows a node just if its kind is that of a node. -/
def Sorted (v : View) : Prop := v.isNode = v.kind.isNode

theorem sorted_of_genuine {v : View} (hv : v.green.Genuine)
    (hkind : v.isNode = true → v.kind.isNode = true) : v.Sorted := by
  unfold Sorted
  cases hg : v.green with
  | token t =>
    rw [hg] at hv
    cases hv with
    | token _ ht => simp [isNode, kind, hg, Green.isNode, Green.kind, Kind.isNode, ht]
  | node head slots =>
    have hnode : v.isNode = true := by rw [isNode, hg]; rfl
    rw [hnode, hkind hnode]

end View

namespace Field

variable {f : Field} {v c : View}

/-- A field can be read if its slot holds something of a kind that suits it. -/
theorem exists_read? (hc : v.slot? f.index = some c) (hsorted : c.Sorted)
    (hsuits : f.type.suits c.kind = true) :
    ∃ value, f.read? v = some value ∧ value.occupants = [c] := by
  unfold View.Sorted at hsorted
  unfold read?
  cases htype : f.type with
  | token =>
    rw [htype, FieldType.suits] at hsuits
    have hnot : c.isNode = false := by rw [hsorted, Kind.isNode, hsuits]; rfl
    refine ⟨.token c, ?_, rfl⟩
    rw [View.token?, hc, Option.filter_some_pos (by rw [hnot]; rfl)]
    rfl
  | node facade =>
    rw [htype, FieldType.suits, Bool.and_eq_true, ← hsorted] at hsuits
    have hcast : facade.cast? c = some c := by rw [Facade.cast?, hsuits.1, hsuits.2]; rfl
    refine ⟨.node facade c, ?_, rfl⟩
    dsimp only
    rw [View.node?, hc, Option.filter_some_pos hsuits.1, Option.bind_some, hcast, Option.map_some]
  | list member =>
    rw [htype, FieldType.suits, Bool.and_eq_true, ← hsorted, Option.any_eq_true] at hsuits
    obtain ⟨hnode, members, hmembers, -⟩ := hsuits
    have hcollection : c.kind.isCollection = true := by
      rw [← Kind.isSome_members?_layout, hmembers]
      rfl
    refine ⟨.list ⟨member, ⟨c⟩⟩, ?_, rfl⟩
    dsimp only
    rw [View.node?, hc, Option.filter_some_pos hnode, Option.bind_some, TypedList.ofView?,
      Collection.ofView?, if_pos hcollection]
    rfl
  | members =>
    rw [htype] at hsuits
    cases hsuits

/-- A field of an empty slot gives nothing. -/
theorem read?_eq_none (hc : v.slot? f.index = none) (htype : f.type ≠ .members) :
    f.read? v = none := by
  unfold read?
  cases hf : f.type with
  | token => simp [View.token?, hc]
  | node facade => simp [View.node?, hc]
  | list member => simp [View.node?, hc]
  | members => exact absurd hf htype

/-- A list is what stands in a slot, read as a collection. -/
theorem slot?_of_read?_list {l : TypedList} (h : f.read? v = some (.list l)) :
    f.type = .list l.member ∧ v.slot? f.index = some l.collection.view := by
  unfold read? at h
  cases hf : f.type with
  | token =>
    simp only [hf, Option.map_eq_some_iff] at h
    obtain ⟨_, -, h⟩ := h
    cases h
  | node facade =>
    simp only [hf, Option.map_eq_some_iff] at h
    obtain ⟨_, -, h⟩ := h
    cases h
  | members =>
    rw [hf] at h
    cases h
  | list member =>
    simp only [hf, Option.map_eq_some_iff, FieldValue.list.injEq, exists_eq_right,
      Option.bind_eq_some_iff, TypedList.ofView?, Collection.ofView?] at h
    obtain ⟨c, hc, _, hcollection, rfl⟩ := h
    split at hcollection
    · obtain rfl := Option.some.inj hcollection
      exact ⟨rfl, Option.eq_some_of_filter_eq_some hc⟩
    · cases hcollection

end Field

/-- Reading fields that each give what stands in their slots. -/
theorem flatMap_occupants_read? {fields : List Field} {v : View}
    (h : ∀ f ∈ fields, (f.read? v).toList.flatMap FieldValue.occupants = (v.slot? f.index).toList) :
    (fields.filterMap (·.read? v)).flatMap FieldValue.occupants =
      (fields.map (·.index)).filterMap v.slot? := by
  induction fields with
  | nil => rfl
  | cons f fields ih =>
    have hf := h f List.mem_cons_self
    have hrest := ih fun x hx => h x (List.mem_cons_of_mem _ hx)
    rw [List.map_cons, List.filterMap_cons, List.filterMap_cons, ← hrest]
    cases hread : f.read? v with
    | none =>
      rw [hread] at hf
      cases hslot : v.slot? f.index with
      | none => rfl
      | some c => rw [hslot] at hf; cases hf
    | some value =>
      rw [hread, Option.toList_some, List.flatMap_singleton] at hf
      rw [List.flatMap_cons, hf]
      cases v.slot? f.index <;> rfl

namespace TypedList

variable {l : TypedList}

/-- A list all of whose members can be read gives them from both ends and by their numbers. -/
theorem toList_of_casts (hv : l.collection.view.green.Genuine) (hfull : l.collection.Full)
    (hcasts : ∀ c ∈ l.collection.view.children, l.member.cast? c = some c) :
    l.toList = l.collection.view.children ∧ l.toListBack = l.toList.reverse ∧
      l.toList.length = l.length ∧ ∀ k, l.get? k = l.toList[k]? := by
  have hall {views : List View} (h : ∀ c ∈ views, l.member.cast? c = some c) :
      views.filterMap l.member.cast? = views := by
    induction views with
    | nil => rfl
    | cons c views ih =>
      rw [List.filterMap_cons, h c List.mem_cons_self,
        ih fun x hx => h x (List.mem_cons_of_mem _ hx)]
  have hlist : l.toList = l.collection.view.children := hall hcasts
  have hmembers := hfull.map_members
  have hlength : l.collection.view.children.length = l.length := by
    have hlength := congrArg List.length hmembers
    rw [List.length_map, List.length_map, List.length_range] at hlength
    exact hlength.symm
  refine ⟨hlist, ?_, hlist ▸ hlength, fun k => ?_⟩
  · rw [hlist, toListBack, Collection.membersBack, View.childrenBack_eq hv]
    exact hall fun c hc => hcasts c (List.mem_reverse.mp hc)
  · rw [hlist, get?]
    by_cases hk : k < l.length
    · have hget : l.collection.get? k = some l.collection.view.children[k] := by
        have hget := congrArg (·[k]?) hmembers
        simpa [List.getElem?_range, show k < l.collection.length from hk,
          List.getElem?_eq_getElem (hlength.symm ▸ hk)] using hget
      rw [hget, Option.bind_some, hcasts _ (List.getElem_mem _),
        List.getElem?_eq_getElem (hlength.symm ▸ hk)]
    · have hnone : l.collection.get? k = none := by
        rw [Collection.get?, View.slot?_eq, List.getElem?_eq_none (Nat.le_of_not_lt hk)]
        rfl
      rw [hnone, List.getElem?_eq_none (hlength.symm ▸ Nat.le_of_not_lt hk)]
      rfl

end TypedList

/-- A node that follows its layout, and none of whose children carries a kind of the other sort. -/
structure View.Readable (v : View) : Prop where
  follows : v.green.follows = true
  sorted : ∀ {index : Nat} {c : View}, v.slot? index = some c → c.Sorted

namespace View.Readable

variable {v c : View} {index : Nat} (h : v.Readable)

include h

/-- What stands in a declared slot of a readable node is accepted there. A slot is empty only if it
may be. -/
theorem slot?_cases {specs : List SlotSpec} {spec : SlotSpec}
    (hlayout : v.kind.layout = .fixed specs) (hspec : specs[index]? = some spec) :
    (v.slot? index = none ∧ (spec.isOptional || v.isMissing) = true) ∨
      ∃ c, v.slot? index = some c ∧ spec.accepts.contains c.kind = true := by
  have hallows : SlotSpec.allowAll v.isMissing specs v.green.slots = true := by
    have hfollows := h.follows
    rw [Green.follows, ← View.kind, hlayout] at hfollows
    exact hfollows
  have hlt : index < v.green.slots.length := by
    rw [SlotSpec.length_of_allowAll hallows]
    exact (List.getElem?_eq_some_iff.mp hspec).1
  obtain ⟨spec', hspec', hslot⟩ :=
    SlotSpec.exists_of_allowAll hallows (List.getElem?_eq_getElem hlt)
  obtain rfl := Option.some.inj (hspec.symm.trans hspec')
  rw [View.slot?_eq, List.getElem?_eq_getElem hlt]
  cases hg : v.green.slots[index] with
  | none =>
    rw [hg] at hslot
    exact .inl ⟨rfl, hslot⟩
  | some g =>
    rw [hg] at hslot
    exact .inr ⟨_, rfl, hslot⟩

section Fixed

variable {specs : List SlotSpec} {spec : SlotSpec} {field : Field}
  (hlayout : v.kind.layout = .fixed specs) (hfit : v.kind.fieldsFit = true)
  (hfield : v.kind.fields[index]? = some field)

include hlayout hfit hfield

/-- A field of a declared slot gives what stands there, and there is something if it is required. -/
theorem read?_field (hspec : v.kind.slotSpecs[index]? = some spec) :
    (field.read? v).map FieldValue.occupants = (v.slot? index).map ([·]) ∧
      (spec.isOptional = false → v.isMissing = false → (field.read? v).isSome = true) := by
  obtain rfl := Kind.index_field hfit hfield
  have hsuits {k : Kind} (hk : spec.accepts.contains k = true) : field.type.suits k = true :=
    Kind.suits_of_accepts hfit hfield hspec hk
  have hslots : v.kind.slotSpecs = specs := by rw [Kind.slotSpecs, hlayout]; rfl
  rcases h.slot?_cases hlayout (hslots ▸ hspec) with ⟨hnone, hempty⟩ | ⟨c, hc, haccepts⟩
  · -- A slot accepts its placeholder, so that its field is not read from the whole node.
    have htype : field.type ≠ .members := by
      intro htype
      have hplaceholder := hsuits (Kind.accepts_placeholder (List.mem_of_getElem? hspec))
      rw [htype] at hplaceholder
      cases hplaceholder
    rw [Field.read?_eq_none hnone htype, hnone]
    refine ⟨rfl, fun hrequired hpresent => ?_⟩
    rw [hrequired, hpresent] at hempty
    cases hempty
  · obtain ⟨value, hread, hvalue⟩ := Field.exists_read? hc (h.sorted hc) (hsuits haccepts)
    rw [hread, hc, Option.map_some, Option.map_some, hvalue]
    exact ⟨rfl, fun _ _ => rfl⟩

theorem occupants_field : (field.read? v).toList.flatMap FieldValue.occupants =
    (v.slot? field.index).toList := by
  obtain ⟨spec, hspec⟩ := Kind.exists_slotSpec hfit hfield
  obtain ⟨hread, -⟩ := h.read?_field hlayout hfit hfield hspec
  rw [Kind.index_field hfit hfield]
  cases hvalue : field.read? v with
  | none =>
    rw [hvalue] at hread
    rw [Option.map_eq_none_iff.mp hread.symm]
    rfl
  | some value =>
    rw [hvalue, Option.map_some] at hread
    obtain ⟨c, hc, hoccupants⟩ := Option.map_eq_some_iff.mp hread.symm
    rw [hc, Option.toList_some, List.flatMap_singleton, ← hoccupants]
    rfl

/-- What a list shows suits the field that it was read from. -/
theorem suits_of_read?_list {l : TypedList} (hlist : field.read? v = some (.list l)) :
    (FieldType.list l.member).suits l.collection.view.kind = true := by
  obtain ⟨htype, hslot⟩ := Field.slot?_of_read?_list hlist
  obtain ⟨spec, hspec⟩ := Kind.exists_slotSpec hfit hfield
  have hslots : v.kind.slotSpecs = specs := by rw [Kind.slotSpecs, hlayout]; rfl
  rw [Kind.index_field hfit hfield] at hslot
  rcases h.slot?_cases hlayout (hslots ▸ hspec) with ⟨hnone, -⟩ | ⟨c, hc, haccepts⟩
  · cases hslot.symm.trans hnone
  · obtain rfl := Option.some.inj (hslot.symm.trans hc)
    exact htype ▸ Kind.suits_of_accepts hfit hfield hspec haccepts

end Fixed

/-- All fields of a readable node together give its children. -/
theorem flatMap_occupants (hname : v.kind.facadeName?.isSome = true) :
    (v.kind.fields.filterMap (·.read? v)).flatMap FieldValue.occupants = v.children := by
  rcases Kind.fields_cases hname with ⟨specs, hlayout, hfit⟩ | ⟨members, name, hlayout, hfields⟩
  · have hcount : v.kind.slotSpecs.length = v.slotCount := by
      have hfollows := h.follows
      rw [Green.follows, ← View.kind, hlayout] at hfollows
      rw [Kind.slotSpecs, hlayout]
      exact (SlotSpec.length_of_allowAll hfollows).symm
    have hread : ∀ field ∈ v.kind.fields,
        (field.read? v).toList.flatMap FieldValue.occupants = (v.slot? field.index).toList := by
      intro field hfield
      obtain ⟨index, hindex⟩ := List.mem_iff_getElem?.mp hfield
      exact h.occupants_field hlayout hfit hindex
    rw [flatMap_occupants_read? hread, Kind.map_index_fields hfit, hcount,
      View.children_eq_filterMap]
  · rw [hfields]
    exact List.flatMap_singleton ..

/-- Every member of a readable collection is there, and can be read as whatever suits its kind. -/
theorem cast?_of_suits {member : Facade} (hsuits : (FieldType.list member).suits v.kind = true) :
    (Collection.mk v).Full ∧ ∀ c ∈ v.children, member.cast? c = some c := by
  rw [FieldType.suits, Bool.and_eq_true, Option.any_eq_true] at hsuits
  obtain ⟨-, members, hmembers, hall⟩ := hsuits
  have hfollows := h.follows
  rw [Green.follows, ← View.kind] at hfollows
  cases hlayout : v.kind.layout with
  | token => rw [hlayout] at hmembers; cases hmembers
  | fixed specs => rw [hlayout] at hmembers; cases hmembers
  | collection kinds =>
    rw [hlayout] at hmembers hfollows
    obtain rfl : kinds = members := Option.some.inj hmembers
    have hslots := List.all_eq_true.mp hfollows
    refine ⟨fun slot hslot hnone => ?_, fun c hc => ?_⟩
    · have hmember := hslots slot hslot
      rw [hnone] at hmember
      cases hmember
    · obtain ⟨index, hindex⟩ := View.mem_children.mp hc
      have hmem : some c.green ∈ v.green.slots :=
        View.green_mem_of_mem_placeSlots (View.mem_slots.mpr ⟨index, hindex⟩)
      have hcontains : kinds.contains c.kind = true := hslots _ hmem
      have hkind := List.all_eq_true.mp hall _ (KindSet.mem_toList.mpr hcontains)
      rw [Bool.and_eq_true, ← show c.isNode = c.kind.isNode from h.sorted hindex] at hkind
      rw [Facade.cast?, hkind.1, hkind.2]
      rfl

end View.Readable

namespace Workspace

open Scene

variable {w : Workspace} {v d : View} {path : List Nat}

/-- In a valid tree whose nodes carry kinds of nodes, every node is readable. -/
theorem Reachable.readable (hw : w.Reachable) (hv : w.Live v.green) (hvalid : v.isValid = true)
    (hkinds : ∀ path d, v.descend? path = some d → d.isNode = true → d.kind.isNode = true)
    (hd : v.descend? path = some d) (hnode : d.isNode = true) : d.Readable := by
  have hgenuine := hw.genuine.of_live hv
  refine ⟨(View.isValid_iff hgenuine).mp hvalid _ (View.within_of_descend? hd) hnode, ?_⟩
  intro index c hc
  have hpath : v.descend? (path ++ [index]) = some c := by
    rw [View.descend?_append, hd, Option.bind_some, View.descend?, hc]
    rfl
  exact View.sorted_of_genuine (hgenuine.of_within (View.within_of_descend? hpath))
    (hkinds _ c hpath)

/-- Take any node of a valid tree whose nodes carry kinds of nodes, and let there be a facade to
read it through. Its fields, one after another, give what stands in its slots and nothing else. A
field that is read from a slot gives something just if the slot is occupied, namely what stands
there, and it always does so if the slot is required and the node is present. A list gives all
members of the collection that stands in the slot, from both ends and by their numbers. -/
theorem Reachable.fields_lose_nothing (hw : w.Reachable) (hv : w.Live v.green)
    (hvalid : v.isValid = true)
    (hkinds : ∀ path d, v.descend? path = some d → d.isNode = true → d.kind.isNode = true)
    (hd : v.descend? path = some d) (hnode : d.isNode = true)
    (hfacade : Facade.namesFor d.kind ≠ []) :
    (d.kind.fields.filterMap (·.read? d)).flatMap FieldValue.occupants = d.children ∧
      (∀ (index : Nat) (spec : SlotSpec), d.kind.slotSpecs[index]? = some spec →
        ∃ field, d.kind.fields[index]? = some field ∧
          (field.read? d).map FieldValue.occupants = (d.slot? index).map ([·]) ∧
          (spec.isOptional = false → d.isMissing = false → (field.read? d).isSome = true)) ∧
      ∀ field ∈ d.kind.fields, ∀ l, field.read? d = some (.list l) →
        l.toList = l.collection.view.children ∧ l.toListBack = l.toList.reverse ∧
          l.toList.length = l.length ∧ ∀ k, l.get? k = l.toList[k]? := by
  have hreadable := hw.readable hv hvalid hkinds hd hnode
  have hname := Kind.isSome_facadeName? hfacade
  refine ⟨hreadable.flatMap_occupants hname, fun index spec hspec => ?_,
    fun field hfield l hl => ?_⟩
  · rcases Kind.fields_cases hname with ⟨specs, hlayout, hfit⟩ | ⟨members, _, hlayout, -⟩
    · obtain ⟨field, hfield⟩ := Kind.exists_field hfit hspec
      exact ⟨field, hfield, hreadable.read?_field hlayout hfit hfield hspec⟩
    · rw [Kind.slotSpecs, hlayout] at hspec
      cases hspec
  · obtain ⟨htype, hslot⟩ := Field.slot?_of_read?_list hl
    rcases Kind.fields_cases hname with ⟨specs, hlayout, hfit⟩ | ⟨members, _, -, hfields⟩
    · obtain ⟨index, hindex⟩ := List.mem_iff_getElem?.mp hfield
      have hsuits := hreadable.suits_of_read?_list hlayout hfit hindex hl
      have hpath : v.descend? (path ++ [field.index]) = some l.collection.view := by
        rw [View.descend?_append, hd, Option.bind_some, View.descend?, hslot]
        rfl
      have hlist : l.collection.view.isNode = true := by
        rw [show l.collection.view.isNode = _ from hreadable.sorted hslot]
        exact (Bool.and_eq_true_iff.mp hsuits).1
      obtain ⟨hfull, hcasts⟩ := (hw.readable hv hvalid hkinds hpath hlist).cast?_of_suits hsuits
      exact TypedList.toList_of_casts ((hw.genuine.of_live hv).of_within
        (View.within_of_descend? hpath)) hfull hcasts
    · rw [hfields, List.mem_singleton] at hfield
      rw [hfield] at htype
      cases htype

/-- The fields of a file with one item: a list of one member, and the end of the text. -/
theorem fields_lose_nothing_file : ∃ (w : Workspace) (v : View) (l : TypedList),
    w.Reachable ∧ w.Live v.green ∧ v.isValid = true ∧ v.kind = .sourceFile ∧
      (∀ path d, v.descend? path = some d → d.isNode = true → d.kind.isNode = true) ∧
      (v.kind.fields.filterMap (·.read? v)).flatMap FieldValue.occupants = v.children ∧
      v.children.length = 2 ∧ Field.read? ⟨"items", 0, .list .item⟩ v = some (.list l) ∧
      l.toList.length = 1 ∧ l.get? 0 = l.toList[0]? ∧ l.get? 1 = none := by
  let v : View := .root 0 strayFile
  let l : TypedList := ⟨.item, ⟨.child v 0 0 strayItems⟩⟩
  have hw : (ofTrees [strayFile]).workspace.Reachable := reachable_ofTrees rfl
  have hlive : (ofTrees [strayFile]).workspace.Live v.green := live_of_found rfl
  have hvalid : v.isValid = true := by decide +kernel
  have hnodes : (v.nodes.all fun d => d.kind.isNode) = true := by decide +kernel
  have hkinds (path : List Nat) (d : View) (hd : v.descend? path = some d)
      (hnode : d.isNode = true) : d.kind.isNode = true :=
    List.all_eq_true.mp hnodes d (View.mem_nodes.mpr ⟨⟨path, hd⟩, hnode⟩)
  have hread : Field.read? ⟨"items", 0, .list .item⟩ v = some (.list l) := rfl
  have hself : v.descend? [] = some v := rfl
  obtain ⟨hfields, -, hlists⟩ := hw.fields_lose_nothing hlive hvalid hkinds hself rfl (by decide)
  obtain ⟨-, -, hlength, hget⟩ := hlists _ List.mem_cons_self l hread
  exact ⟨_, v, l, hw, hlive, hvalid, rfl, hkinds, hfields, rfl, hread, hlength, hget 0,
    (hget 1).trans (List.getElem?_eq_none (Nat.le_of_eq hlength))⟩

end Workspace

end Verbatim
