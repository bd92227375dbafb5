import Verbatim.Proofs.Conformity

/-!
# What is set aside

Text that fits nowhere is set aside up to a token from which the grammar can go on, and at least one
token is. So the grammar never stops setting aside only to start again: in the lists of statements
and of items, what was set aside does not stand next to more of the same. This also holds after the
nesting limit was met, since the rest of an overly nested statement is set aside as one piece.
-/

namespace Verbatim

/-- Whether setting tokens aside ends here. -/
def Reader.stops (p : Reader) (stop : KindSet) : Bool := p.next == .eof || stop.contains p.next

namespace Sketch

/-- Whether tokens were set aside here. -/
def isStray (s : Sketch) : Bool := s.kind? == some .unexpected

/-- What was set aside does not stand next to more of the same. -/
def Apart : List Sketch → Prop
  | [] => True
  | s :: rest => (s.isStray = true → ∀ t ∈ rest.head?, t.isStray = false) ∧ Apart rest

/-- Two neighbours were not both set aside. -/
theorem Apart.neighbours {front back : List Sketch} {a b : Sketch}
    (h : Apart (front ++ a :: b :: back)) (ha : a.isStray = true) : b.isStray = false := by
  induction front with
  | nil => exact h.1 ha b rfl
  | cons s front ih => exact ih h.2

end Sketch

namespace Reads

open Grammar Phrase Sketch

variable {p q r : Reader} {slots more : List Sketch} {x : Phrase} {stop stop' : KindSet}

/-- Tokens are set aside up to the end of the text, or to one where the grammar can go on. -/
theorem stops_of_stray (h : Reads (Phrase.stray stop) p slots q) : q.stops stop = true := by
  cases h with
  | @stray t rest n =>
    have hhead := List.head?_dropWhile_not (fun u : Token => !stop.contains u.kind) rest
    unfold Reader.stops Reader.next
    cases hrest : rest.dropWhile fun u => !stop.contains u.kind with
    | nil => rfl
    | cons u back =>
      rw [hrest] at hhead
      simp only [List.head?_cons, Bool.not_eq_false'] at hhead
      simp [hhead]

/-- A phrase that sets tokens aside does so where something else could not go on, and it goes as far
as it can. -/
def StraysAt (x : Phrase) (stop : KindSet) (p : Reader) : Prop :=
  ∀ s q, Reads x p [s] q → s.isStray = true →
    p.stops stop = false ∧ q.nesting = p.nesting ∧ q.stops stop = true

/-- A choice sets tokens aside where one of its pieces does. -/
theorem straysAt_either {first : KindSet} {y : Phrase} (hx : some .unexpected ∉ x.kinds)
    (hy : first.contains p.next = false → StraysAt y stop p) :
    StraysAt (.either first x y) stop p := by
  intro s q h hs
  cases h with
  | there _ h => exact absurd (beq_iff_eq.mp hs ▸ h.kind_mem_kinds s List.mem_cons_self) hx
  | other hnext h => exact hy hnext s q h hs

theorem straysAt_stray (hp : p.stops stop = false) : StraysAt (.stray stop) stop p :=
  fun _ _ h _ => ⟨hp, h.nesting_eq rfl, h.stops_of_stray⟩

/-- A statement sets aside what cannot start another statement, nor end the block. -/
theorem straysAt_stmt (hp : (p.next == .eof || blockEnd.contains p.next) = false) :
    StraysAt stmt stmtStop p := by
  refine straysAt_either (by decide) fun hlet => straysAt_either (by decide) fun hreturn =>
    straysAt_either (by decide) fun hexpr => straysAt_stray ?_
  rw [Reader.stops, stmtStop, nestingStop, KindSet.contains_union, hexpr]
  simp only [blockEnd, KindSet.contains_ofList, KindSet.contains_single] at hp hlet hreturn ⊢
  simp_all

/-- An item sets aside what cannot start another item. -/
theorem straysAt_item (hp : p.next ≠ .eof) : StraysAt item itemFirst p := by
  refine straysAt_either (by decide) fun hfunc => straysAt_either (by decide) fun hlet =>
    straysAt_stray ?_
  rw [Reader.stops, itemFirst]
  simp only [KindSet.contains_ofList, KindSet.contains_single] at hfunc hlet ⊢
  simp_all

/-- What is read in one round of a loop, and after it, is apart. -/
theorem apart_append (h : Reads (Phrase.seq [x, .recovery stop']) p slots q)
    (hslot : x.isSlot = true) (hx : StraysAt x stop p) (hp : p.nesting.exhausted = false)
    (hstop : ∀ r : Reader, r.stops stop' = true → r.stops stop = true) (hmore : Apart more)
    (hnext : ∀ t ∈ more.head?, t.isStray = true → q.stops stop = false) :
    Apart (slots ++ more) ∧
      ∀ t ∈ (slots ++ more).head?, t.isStray = true → p.stops stop = false := by
  have hstopped (hq : q.stops stop = true) : ∀ t ∈ more.head?, t.isStray = false := by
    intro t ht
    refine Bool.eq_false_iff.mpr fun hstray => ?_
    rw [hnext t ht hstray] at hq
    cases hq
  cases h with
  | cons hfirst hrest =>
    obtain ⟨s, rfl, -⟩ := hfirst.yields (Phrase.yields_of_isSlot hslot)
    cases hrest with
    | cons hrecovery hnil =>
      cases hnil
      have hhead : ∀ t ∈ some s, t.isStray = true → p.stops stop = false := by
        intro t ht hs
        obtain rfl := Option.mem_some.mp ht
        exact (hx _ _ hfirst hs).1
      cases hrecovery with
      | calm =>
        refine ⟨⟨fun hs => ?_, hmore⟩, hhead⟩
        exact hstopped (hx _ _ hfirst hs).2.2
      | rescue hstuck hstray =>
        obtain ⟨t, rfl, -⟩ := hstray.yields (Phrase.yields_of_isSlot rfl)
        refine ⟨⟨fun hs => ?_, fun _ => ?_, hmore⟩, hhead⟩
        · -- Nothing is rescued after tokens that were set aside, for they meet no limit.
          rw [Reader.isStuck, (hx _ _ hfirst hs).2.1, hp] at hstuck
          cases hstuck
        · exact hstopped (hstop _ hstray.stops_of_stray)

/-- The statements of a block are apart. -/
theorem apart_stmts (h : Reads Phrase.stmts p slots q) (hp : p.nesting.exhausted = false) :
    Apart slots ∧ ∀ t ∈ slots.head?, t.isStray = true → p.stops stmtStop = false := by
  generalize hgoal : (Phrase.stmts : Goal) = goal at h
  induction h with
  | stmtsDone => exact ⟨trivial, fun t ht => absurd ht (Option.not_mem_none t)⟩
  | stmtsMore hguard hstmt _ _ ih =>
    obtain ⟨hapart, hnext⟩ := ih hstmt.exhausted_of_round rfl
    refine hstmt.apart_append rfl (straysAt_stmt hguard) hp (fun r hr => ?_) hapart hnext
    rw [Reader.stops, Bool.or_eq_true] at hr ⊢
    exact hr.imp id fun hr => by rw [stmtStop, KindSet.contains_union, hr, Bool.true_or]
  | _ => cases hgoal

/-- The items of a file are apart. -/
theorem apart_items (h : Reads Phrase.items p slots q) (hp : p.nesting.exhausted = false) :
    Apart slots ∧ ∀ t ∈ slots.head?, t.isStray = true → p.stops itemFirst = false := by
  generalize hgoal : (Phrase.items : Goal) = goal at h
  induction h with
  | itemsDone => exact ⟨trivial, fun t ht => absurd ht (Option.not_mem_none t)⟩
  | itemsMore hguard hitem _ _ ih =>
    obtain ⟨hapart, hnext⟩ := ih hitem.exhausted_of_round rfl
    exact hitem.apart_append rfl (straysAt_item hguard) hp (fun _ hr => hr) hapart hnext
  | _ => cases hgoal

end Reads

end Verbatim
