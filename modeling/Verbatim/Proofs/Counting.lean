import Verbatim.Proofs.Within
import Verbatim.Store.Collect

/-!
# Counting references

The numbers of references tally if each counts the trees that are held and the slots of what is
alive. Taking and giving up references keeps them so. What is alive is then just what is in use: an
element that is alive is held itself, or stands in a slot of a larger one that is alive.
-/

namespace Verbatim

namespace Green

/-- Number of members of a list that are the element with an identity. -/
def occurrences (i : Ident) (trees : List Green) : Nat := trees.countP (·.id == i)

/-- Whether an element is a token of a store and has a certain text. -/
def spells (store : Nat) (text : String) : Green → Bool
  | token t => t.id.store == store && t.data.text == text
  | node .. => false

section Occurrences

variable {i : Ident} {g : Green} {trees more : List Green}

@[simp] theorem occurrences_nil : occurrences i [] = 0 := rfl

@[simp] theorem occurrences_append :
    occurrences i (trees ++ more) = occurrences i trees + occurrences i more := List.countP_append

theorem occurrences_cons_self : occurrences g.id (g :: trees) = occurrences g.id trees + 1 :=
  List.countP_cons_of_pos (beq_self_eq_true _)

theorem occurrences_cons_of_ne (h : g.id ≠ i) :
    occurrences i (g :: trees) = occurrences i trees :=
  List.countP_cons_of_neg (by simpa using h)

theorem occurrences_pos_iff : 0 < occurrences i trees ↔ ∃ g ∈ trees, g.id = i := by
  simp [occurrences, List.countP_pos_iff]

theorem occurrences_perm (h : trees.Perm more) : occurrences i trees = occurrences i more :=
  h.countP_eq _

/-- Each of several different elements occurs at most once among them. -/
theorem occurrences_le_one (h : (trees.map id).Nodup) : occurrences i trees ≤ 1 := by
  have hcount : occurrences i trees = (trees.map id).count i := by
    rw [List.count, List.countP_map]
    rfl
  rw [hcount]
  exact List.nodup_iff_count.mp h i

end Occurrences

/-- What holds of an element if it holds of all larger ones of a list holds of the whole list. -/
theorem forall_of_larger {P : Green → Prop} {trees : List Green}
    (h : ∀ g ∈ trees, (∀ x ∈ trees, g.size < x.size → P x) → P g) : ∀ g ∈ trees, P g := by
  -- The induction is on how far the size of an element is from the sum of all sizes.
  intro g hg
  induction hn : sumOf size trees - g.size using Nat.strongRecOn generalizing g with
  | ind n ih =>
    refine h g hg fun x hx hlt => ih _ ?_ x hx rfl
    have := le_sumOf_of_mem size hx
    omega

end Green

open Green (occurrences)

namespace Counts

section Updates

variable {c : Counts} {id i : Ident} {n : Nat} {g : Green} {update : Nat → Nat} {store : Nat}
  {text : String}

@[simp] theorem ofElement_setElement_self : (c.setElement i n).ofElement i = n :=
  Std.HashMap.getD_insert_self

theorem ofElement_setElement_of_ne (h : id ≠ i) :
    (c.setElement id n).ofElement i = c.ofElement i := by
  simp [setElement, ofElement, Std.HashMap.getD_insert, h]

@[simp] theorem ofText_setElement : (c.setElement i n).ofText store text = c.ofText store text :=
  rfl

@[simp] theorem ofElement_updateText : (c.updateText update g).ofElement i = c.ofElement i := by
  cases g <;> rfl

theorem ofText_updateText : (c.updateText update g).ofText store text =
    if g.spells store text then update (c.ofText store text) else c.ofText store text := by
  cases g with
  | node head slots => rfl
  | token t =>
    by_cases h : t.id.store = store ∧ t.data.text = text
    · obtain ⟨rfl, rfl⟩ := h
      simp [updateText, ofText, Green.spells]
    · have hne : ((t.id.store, t.data.text) == (store, text)) = false := by simpa using h
      have hspells : (Green.token t).spells store text = false := by
        simpa [Green.spells] using h
      simp [updateText, ofText, Std.HashMap.getD_insert, hne, hspells]

end Updates

/-- The numbers count the references from `trees` and from the slots of what is alive, but for those
in `pending`, which are yet to be taken. -/
structure Tallies (c : Counts) (r : Registry) (trees pending live : List Green) : Prop where
  known : ∀ g ∈ live, r.Knows g
  nodup : (live.map Green.id).Nodup
  count : ∀ i, c.ofElement i + occurrences i pending =
    occurrences i trees + sumOf (fun g => occurrences i g.children) live
  alive : ∀ i, c.ofElement i ≠ 0 ↔ ∃ g ∈ live, g.id = i
  texts : ∀ store text, c.ofText store text = live.countP (Green.spells store text)

namespace Tallies

variable {c : Counts} {r : Registry} {trees pending live : List Green} {g : Green}

/-- Where nothing is alive, everything is yet to be taken. -/
theorem empty (r : Registry) (trees : List Green) : Tallies {} r trees trees [] where
  known := by simp
  nodup := by simp
  count i := by simp [ofElement]
  alive i := by simp [ofElement]
  texts store text := by simp [ofText]

theorem perm {more : List Green} (h : Tallies c r trees pending live) (hperm : trees.Perm more) :
    Tallies c r more pending live :=
  { h with count := fun i => by rw [← Green.occurrences_perm hperm, h.count i] }

/-- An element is alive just if its number of references is positive. -/
theorem mem_live_iff (h : Tallies c r trees pending live) (hg : r.Knows g) :
    g ∈ live ↔ c.ofElement g.id ≠ 0 := by
  rw [h.alive]
  refine ⟨fun hmem => ⟨g, hmem, rfl⟩, fun ⟨x, hx, hid⟩ => ?_⟩
  exact (h.known x hx).eq_of_id hg hid ▸ hx

/-- The order of what is alive does not matter. -/
theorem exists_cons (h : Tallies c r trees pending live) (hg : g ∈ live) :
    ∃ rest, Tallies c r trees pending (g :: rest) := by
  obtain ⟨before, after, rfl⟩ := List.append_of_mem hg
  have hperm : (before ++ g :: after).Perm (g :: (before ++ after)) := List.perm_middle
  refine ⟨before ++ after, fun x hx => h.known x (hperm.mem_iff.mpr hx), ?_, fun i => ?_,
    fun i => ?_, fun store text => ?_⟩
  · exact (hperm.map Green.id).nodup_iff.mp h.nodup
  · rw [h.count i]
    simp only [sumOf_append, sumOf_cons]
    omega
  · rw [h.alive i]
    simp only [hperm.mem_iff]
  · rw [h.texts, hperm.countP_eq]

/-- A reference is taken to what is alive. -/
theorem holdAlive (h : Tallies c r trees (g :: pending) live) (hpos : c.ofElement g.id ≠ 0) :
    Tallies (c.setElement g.id (c.ofElement g.id + 1)) r trees pending live where
  known := h.known
  nodup := h.nodup
  count i := by
    have hcount := h.count i
    by_cases hi : g.id = i
    · subst hi
      rw [Green.occurrences_cons_self] at hcount
      rw [ofElement_setElement_self]
      omega
    · rwa [Green.occurrences_cons_of_ne hi, ← ofElement_setElement_of_ne hi] at hcount
  alive i := by
    by_cases hi : g.id = i
    · subst hi
      rw [ofElement_setElement_self, ← h.alive]
      omega
    · rw [ofElement_setElement_of_ne hi, h.alive]
  texts := h.texts

/-- A first reference is taken to an element, which comes to life. -/
theorem holdNew (h : Tallies c r trees (g :: pending) live) (hg : r.Knows g)
    (hzero : c.ofElement g.id = 0) :
    Tallies ((c.setElement g.id (c.ofElement g.id + 1)).updateText (· + 1) g) r trees
      (g.children ++ pending) (g :: live) where
  known x hx := by
    rcases List.mem_cons.mp hx with rfl | hx
    · exact hg
    · exact h.known x hx
  nodup := by
    rw [List.map_cons, List.nodup_cons]
    refine ⟨fun hmem => ?_, h.nodup⟩
    obtain ⟨x, hx, hid⟩ := List.mem_map.mp hmem
    exact (h.alive g.id).mpr ⟨x, hx, hid⟩ hzero
  count i := by
    have hcount := h.count i
    rw [ofElement_updateText, Green.occurrences_append, sumOf_cons]
    by_cases hi : g.id = i
    · subst hi
      rw [Green.occurrences_cons_self] at hcount
      rw [ofElement_setElement_self]
      omega
    · rw [Green.occurrences_cons_of_ne hi] at hcount
      rw [ofElement_setElement_of_ne hi]
      omega
  alive i := by
    rw [ofElement_updateText]
    by_cases hi : g.id = i
    · subst hi
      simp
    · rw [ofElement_setElement_of_ne hi, h.alive]
      simp [hi]
  texts store text := by
    rw [ofText_updateText, ofText_setElement, h.texts, List.countP_cons]
    split <;> rfl

/-- One of several references to an element is given up. -/
theorem releaseShared (h : Tallies c r (g :: trees) [] live) (hne : c.ofElement g.id ≠ 1) :
    Tallies (c.setElement g.id (c.ofElement g.id - 1)) r trees [] live where
  known := h.known
  nodup := h.nodup
  count i := by
    have hcount := h.count i
    by_cases hi : g.id = i
    · subst hi
      rw [Green.occurrences_cons_self, Green.occurrences_nil] at hcount
      rw [ofElement_setElement_self, Green.occurrences_nil]
      omega
    · rwa [Green.occurrences_cons_of_ne hi, ← ofElement_setElement_of_ne hi] at hcount
  alive i := by
    by_cases hi : g.id = i
    · subst hi
      have hcount := h.count g.id
      rw [Green.occurrences_cons_self, Green.occurrences_nil] at hcount
      rw [ofElement_setElement_self, ← h.alive]
      omega
    · rw [ofElement_setElement_of_ne hi, h.alive]
  texts := h.texts

/-- The last reference to an element is given up; it dies, and those to what stands in its slots are
given up next. -/
theorem releaseLast (h : Tallies c r (g :: trees) [] live) (hg : r.Knows g)
    (hone : c.ofElement g.id = 1) :
    ∃ rest, Tallies ((c.setElement g.id (c.ofElement g.id - 1)).updateText (· - 1) g) r
      (g.children ++ trees) [] rest := by
  obtain ⟨rest, h⟩ := h.exists_cons ((h.mem_live_iff hg).mpr (by omega))
  have hnodup := List.nodup_cons.mp h.nodup
  refine ⟨rest, fun x hx => h.known x (List.mem_cons_of_mem _ hx), hnodup.2, fun i => ?_,
    fun i => ?_, fun store text => ?_⟩
  · have hcount := h.count i
    rw [sumOf_cons] at hcount
    rw [ofElement_updateText, Green.occurrences_append]
    by_cases hi : g.id = i
    · subst hi
      rw [Green.occurrences_cons_self] at hcount
      rw [ofElement_setElement_self]
      omega
    · rw [Green.occurrences_cons_of_ne hi] at hcount
      rw [ofElement_setElement_of_ne hi]
      omega
  · rw [ofElement_updateText]
    by_cases hi : g.id = i
    · subst hi
      rw [ofElement_setElement_self, hone]
      refine ⟨fun hne => absurd rfl hne, fun ⟨x, hx, hid⟩ => ?_⟩
      exact absurd (List.mem_map.mpr ⟨x, hx, hid⟩) hnodup.1
    · rw [ofElement_setElement_of_ne hi, h.alive]
      simp [hi]
  · rw [ofText_updateText, ofText_setElement, h.texts, List.countP_cons]
    split <;> simp_all

end Tallies

variable {c : Counts} {r : Registry} {trees work live : List Green}

/-- Taking references brings to life what they lead to. -/
theorem exists_tallies_hold (h : Tallies c r trees work live) (hwork : ∀ g ∈ work, r.Knows g) :
    ∃ live, Tallies (c.hold work) r trees [] live := by
  fun_induction hold c work generalizing live with
  | case1 c => exact ⟨live, h⟩
  | case2 c g rest count _ hcount =>
    rename_i ih
    have hg := hwork g List.mem_cons_self
    refine ih (h.holdNew hg hcount) fun x hx => ?_
    rcases List.mem_append.mp hx with hx | hx
    · exact hg.of_within (.of_slot (Green.mem_children.mp hx))
    · exact hwork x (List.mem_cons_of_mem _ hx)
  | case3 c g rest count _ hcount =>
    rename_i ih
    exact ih (h.holdAlive hcount) fun x hx => hwork x (List.mem_cons_of_mem _ hx)

/-- Giving up references leaves the others. -/
theorem exists_tallies_release (h : Tallies c r (work ++ trees) [] live)
    (hwork : ∀ g ∈ work, r.Knows g) : ∃ live, Tallies (c.release work) r trees [] live := by
  fun_induction release c work generalizing live with
  | case1 c => exact ⟨live, h⟩
  | case2 c g rest count _ hcount =>
    rename_i ih
    have hg := hwork g List.mem_cons_self
    obtain ⟨live, h⟩ := h.releaseLast hg hcount
    refine ih (List.append_assoc .. ▸ h) fun x hx => ?_
    rcases List.mem_append.mp hx with hx | hx
    · exact hg.of_within (.of_slot (Green.mem_children.mp hx))
    · exact hwork x (List.mem_cons_of_mem _ hx)
  | case3 c g rest count _ hcount =>
    rename_i ih
    exact ih (h.releaseShared hcount) fun x hx => hwork x (List.mem_cons_of_mem _ hx)

namespace Tallies

variable {g : Green}

/-- An element to which there are more references than some trees account for is held otherwise, or
stands in a slot of something that is alive. -/
theorem mem_or_exists_slot {more : List Green} (h : Tallies c r (more ++ trees) [] live)
    (htrees : ∀ g ∈ trees, r.Knows g) (hg : r.Knows g)
    (hmore : occurrences g.id more < c.ofElement g.id) :
    g ∈ trees ∨ ∃ parent ∈ live, some g ∈ parent.slots := by
  have hcount := h.count g.id
  rw [Green.occurrences_nil, Green.occurrences_append] at hcount
  by_cases hpos : 0 < occurrences g.id trees
  · obtain ⟨x, hx, hid⟩ := Green.occurrences_pos_iff.mp hpos
    exact .inl ((htrees x hx).eq_of_id hg hid ▸ hx)
  · obtain ⟨parent, hparent, hchild⟩ :
        ∃ parent ∈ live, 0 < occurrences g.id parent.children := exists_of_sumOf_pos (by omega)
    obtain ⟨x, hx, hid⟩ := Green.occurrences_pos_iff.mp hchild
    have hslot := Green.mem_children.mp hx
    have hknows := (h.known parent hparent).of_within (.of_slot hslot)
    exact .inr ⟨parent, hparent, hknows.eq_of_id hg hid ▸ hslot⟩

/-- What is alive is just what is in use. -/
theorem mem_live_iff_inUse (h : Tallies c r trees [] live) (htrees : ∀ g ∈ trees, r.Knows g) :
    g ∈ live ↔ g.InUse trees := by
  constructor
  · refine Green.forall_of_larger (P := fun g => g.InUse trees) (fun g hg hlarger => ?_) g
    have hknows := h.known g hg
    have hpos := (h.mem_live_iff hknows).mp hg
    have hnil : Tallies c r ([] ++ trees) [] live := h
    rcases hnil.mem_or_exists_slot htrees hknows (Nat.pos_of_ne_zero hpos) with
      hg | ⟨parent, hparent, hslot⟩
    · exact .of_mem hg
    · exact (hlarger parent hparent (Green.size_lt_of_mem_slots hslot)).of_within (.of_slot hslot)
  · rintro ⟨root, hroot, hg⟩
    have hlive {x : Green} (hx : r.Knows x) (hpos : 0 < occurrences x.id trees +
        sumOf (fun g => occurrences x.id g.children) live) : x ∈ live := by
      have hcount := h.count x.id
      rw [Green.occurrences_nil] at hcount
      exact (h.mem_live_iff hx).mpr (by omega)
    have hmem : root ∈ live := by
      have := Green.occurrences_pos_iff.mpr ⟨root, hroot, rfl⟩
      exact hlive (htrees root hroot) (by omega)
    clear hroot
    induction hg with
    | refl => exact hmem
    | @slot child parent hslot _ ih =>
      refine ih (hlive ((h.known parent hmem).of_within (.of_slot hslot)) ?_)
      have hpos := Green.occurrences_pos_iff.mpr ⟨child, Green.mem_children.mpr hslot, rfl⟩
      have hle := le_sumOf_of_mem (fun g => occurrences child.id g.children) hmem
      omega

/-- If there are other references to each entry of a table, the entries are in use without the
table. -/
theorem inUse_of_settled {entries : List Green} (h : Tallies c r (entries ++ trees) [] live)
    (hentries : ∀ g ∈ entries, r.Knows g) (htrees : ∀ g ∈ trees, r.Knows g)
    (hnodup : (entries.map Green.id).Nodup) (hne : ∀ g ∈ entries, c.ofElement g.id ≠ 1) :
    ∀ g ∈ entries, g.InUse trees := by
  have hall : ∀ g ∈ entries ++ trees, r.Knows g := fun g hg =>
    (List.mem_append.mp hg).elim (hentries g) (htrees g)
  refine Green.forall_of_larger fun g hg hlarger => ?_
  have hknows := hentries g hg
  have hpos := (h.mem_live_iff hknows).mp
    ((h.mem_live_iff_inUse hall).mpr (.of_mem (List.mem_append_left _ hg)))
  have hone : occurrences g.id entries ≤ 1 := Green.occurrences_le_one hnodup
  have hother := hne g hg
  rcases h.mem_or_exists_slot htrees hknows (by omega) with hg | ⟨parent, hparent, hslot⟩
  · exact .of_mem hg
  · -- The parent is alive because of some root, which is larger than the entry.
    obtain ⟨root, hroot, hwithin⟩ := (h.mem_live_iff_inUse hall).mp hparent
    have hg : g.Within root := (Green.Within.of_slot hslot).trans hwithin
    rcases List.mem_append.mp hroot with hroot | hroot
    · refine (hlarger root hroot ?_).of_within hg
      exact Nat.lt_of_lt_of_le (Green.size_lt_of_mem_slots hslot) hwithin.size_le
    · exact ⟨root, hroot, hg⟩

end Tallies

end Counts

end Verbatim
