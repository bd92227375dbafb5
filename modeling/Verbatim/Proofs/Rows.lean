import Verbatim.Builder.Row
import Verbatim.Proofs.Flattening

/-!
# Building in one row

A builder that keeps its slots in one row does what a builder does that keeps the slots of each open
node apart. Each state of the one is the row of a state of the other, and a step leads from row to
row, also where it fails: then an attempt to finish a node has closed the node. Its slots are left
to the node around it if there were too few or too many of them, and are lost if the node could not
be made.
-/

namespace Verbatim

namespace Builder

/-- The open nodes, innermost first, each with the number of slots filled before it was opened. -/
def starts : List (Kind × List Slot) → List (Kind × Nat)
  | [] => []
  | (kind, before) :: outer =>
    (kind, before.length + (outer.flatMap (·.2)).length) :: starts outer

/-- The builder with all slots in one row. -/
def row (b : Builder) : RowBuilder := ⟨starts b.opened, b.slots.reverse⟩

/-- What is left of a builder when a step has failed. -/
def left (b : Builder) : BuildStep → Builder
  | .finish =>
    match b.opened with
    | [] => b
    | (kind, before) :: opened =>
      if kind.layout.isArity b.filled.length then ⟨opened, before⟩
      else ⟨opened, b.filled ++ before⟩
  | .start _ | .token .. | .missing _ | .absent => b

/-- What is left of a builder after a step, given the outcome of the step. -/
def after (b : Builder) (step : BuildStep) : Except Fault Builder → Builder
  | .ok c => c
  | .error _ => b.left step

theorem left_finish (kind : Kind) (before filled : List Slot) (outer : List (Kind × List Slot)) :
    left ⟨(kind, before) :: outer, filled⟩ .finish =
      if kind.layout.isArity filled.length then ⟨outer, before⟩ else ⟨outer, filled ++ before⟩ :=
  rfl

/-- The open nodes that are reported are the starts of those in the row, outermost first. -/
theorem openedAfter_eq (b : Builder) : b.openedAfter = (starts b.opened).reverse := by
  have hfold (opened : List (Kind × List Slot)) :
      opened.reverse.foldl (fun found node =>
        (found.1 + node.2.length, (node.1, found.1 + node.2.length) :: found.2)) (0, []) =
          ((opened.flatMap (·.2)).length, starts opened) := by
    induction opened with
    | nil => rfl
    | cons top outer ih =>
      rw [List.reverse_cons, List.foldl_append, ih]
      simp [starts, Nat.add_comm]
  exact congrArg (·.2.reverse) (hfold b.opened)

theorem row_fill (b : Builder) (slot : Slot) :
    (b.fill slot).row = { b.row with row := b.row.row ++ [slot] } := by
  simp [row, fill, slots]

end Builder

namespace RowBuilder

section Act

variable {α β : Type} {x : Act α} {f : α → Act β} {b c : RowBuilder} {s t : Store} {a : α}
  {fault : Fault}

theorem bind_eq_of_ok (h : x b s = ((.ok a, c), t)) : (x >>= f) b s = f a c t := by
  change ExceptT.bindCont f (x b s).1.1 (x b s).1.2 (x b s).2 = _
  rw [h]
  rfl

theorem bind_eq_of_error (h : x b s = ((.error fault, c), t)) :
    (x >>= f) b s = ((.error fault, c), t) := by
  change ExceptT.bindCont f (x b s).1.1 (x b s).1.2 (x b s).2 = _
  rw [h]
  rfl

/-- Letting the store act leaves the builder as it is. -/
theorem inStore_eq {act : Alloc α} {outcome : Except Fault α} (h : act s = (outcome, t))
    (b : RowBuilder) : inStore act b s = ((outcome, b), t) := by
  change (((act s).1, b), (act s).2) = _
  rw [h]

theorem finishNode_of_ok {kind : Kind} {slots : List Slot}
    (h : b.takeNode = (.ok (kind, slots), c)) (s : Store) :
    finishNode b s =
      (inStore (Alloc.makeNode kind slots) >>= fun node => fill (some node)) c s := by
  have htake : (modifyGet takeNode : Act _) b s = ((.ok (.ok (kind, slots)), c), s) := by
    change ((Except.ok b.takeNode.1, b.takeNode.2), s) = _
    rw [h]
  rw [finishNode, bind_eq_of_ok htake]
  rfl

theorem finishNode_of_error (h : b.takeNode = (.error fault, c)) (s : Store) :
    finishNode b s = ((.error fault, c), s) := by
  have htake : (modifyGet takeNode : Act _) b s = ((.ok (.error fault), c), s) := by
    change ((Except.ok b.takeNode.1, b.takeNode.2), s) = _
    rw [h]
  rw [finishNode, bind_eq_of_ok htake]
  rfl

end Act

section Step

variable {b c : Builder} {s t : Store} {outcome : Except Fault Builder}

/-- Filling a slot does the same to the row. -/
theorem fill_row (b : Builder) (slot : Slot) (s : Store) :
    fill slot b.row s = ((.ok (), (b.fill slot).row), s) := by
  rw [Builder.row_fill]
  rfl

/-- A slot is filled with what the store makes, or nothing happens to the builder. -/
theorem inStore_fill_row {α : Type} {act : Alloc α} {f : α → Slot}
    (h : (act >>= fun a => return b.fill (f a) : Alloc Builder) s = (outcome, t)) :
    (inStore act >>= fun a => fill (f a)) b.row s =
      ((outcome.map fun _ => (), (b.after .absent outcome).row), t) := by
  rcases hact : act s with ⟨made, u⟩
  cases made with
  | ok a =>
    rw [Alloc.bind_eq_of_ok hact] at h
    cases h
    rw [bind_eq_of_ok (inStore_eq hact b.row), fill_row]
    rfl
  | error fault =>
    rw [Alloc.bind_eq_of_error hact] at h
    cases h
    exact bind_eq_of_error (inStore_eq hact b.row)

/-- Nothing is wrong with a number of slots just if it is one that the layout allows. -/
theorem slotFault?_eq_none_iff {kind : Kind} {n : Nat} :
    slotFault? kind n = none ↔ kind.layout.isArity n = true := by
  cases hlayout : kind.layout <;> simp [slotFault?, Layout.isArity, hlayout]

theorem exists_of_slotFault?_eq_some {kind : Kind} {n : Nat} {fault : Fault}
    (h : slotFault? kind n = some fault) :
    ∃ specs, kind.layout = .fixed specs ∧ n ≠ specs.length ∧
      fault = .slotCount kind n specs.length := by
  cases hlayout : kind.layout <;> simp [slotFault?, hlayout] at h
  exact ⟨_, rfl, h.1, h.2.symm⟩

section Node

variable {kind : Kind} {before filled : List Slot} {outer : List (Kind × List Slot)}

/-- The row ends with the slots of the innermost open node. -/
theorem row_cons (kind : Kind) (before filled : List Slot) (outer : List (Kind × List Slot)) :
    (Builder.row ⟨(kind, before) :: outer, filled⟩) =
      ⟨(kind, (Builder.row ⟨outer, before⟩).row.length) :: Builder.starts outer,
        (Builder.row ⟨outer, before⟩).row ++ filled.reverse⟩ := by
  simp [Builder.row, Builder.starts, Builder.slots, Nat.add_comm]

/-- What is taken out of a row with an open node is decided by the number of its slots alone. -/
theorem takeNode_row (kind : Kind) (before filled : List Slot)
    (outer : List (Kind × List Slot)) :
    (Builder.row ⟨(kind, before) :: outer, filled⟩).takeNode =
      match slotFault? kind filled.length with
      | some fault => (.error fault, Builder.row ⟨outer, filled ++ before⟩)
      | none => (.ok (kind, filled.reverse), Builder.row ⟨outer, before⟩) := by
  have hlost : Builder.row ⟨outer, filled ++ before⟩ =
      ⟨Builder.starts outer, (Builder.row ⟨outer, before⟩).row ++ filled.reverse⟩ := by
    simp [Builder.row, Builder.slots]
  rw [row_cons, hlost, takeNode]
  dsimp only
  rw [if_neg (by simp), List.length_append, Nat.add_sub_cancel_left, List.length_reverse,
    List.drop_left, List.take_left]
  rfl

/-- To close a node leads from row to row, and the node is closed in any case. -/
theorem finishNode_row (h : b.finishNode s = (outcome, t)) :
    finishNode b.row s = ((outcome.map fun _ => (), (b.after .finish outcome).row), t) := by
  obtain ⟨opened, filled⟩ := b
  cases opened with
  | nil =>
    cases h
    rfl
  | cons top outer =>
    obtain ⟨kind, before⟩ := top
    have htake := takeNode_row kind before filled outer
    cases hslots : slotFault? kind filled.length with
    | none =>
      have harity := slotFault?_eq_none_iff.mp hslots
      rw [Builder.finishNode_of_arity rfl (Layout.isArity_iff.mp harity)] at h
      rw [hslots] at htake
      rw [finishNode_of_ok htake, @inStore_fill_row ⟨outer, before⟩ s t outcome _ _ _ h]
      cases outcome with
      | ok c => rfl
      | error fault =>
        rw [Builder.after, Builder.after, Builder.left_finish, if_pos harity]
        rfl
    | some fault =>
      obtain ⟨specs, hlayout, hlength, hfault⟩ := exists_of_slotFault?_eq_some hslots
      have harity : ¬kind.layout.isArity filled.length = true :=
        fun harity => nomatch hslots.symm.trans (slotFault?_eq_none_iff.mpr harity)
      rw [Builder.finishNode_of_not_arity rfl hlayout hlength] at h
      cases h
      rw [hslots] at htake
      rw [finishNode_of_error htake, Builder.after, Builder.left_finish, if_neg harity, hfault]
      rfl

end Node

/-- Opening a node does the same to the row. -/
theorem start_row {kind : Kind} (h : b.step (.start kind) s = (outcome, t)) :
    start kind b.row s = ((outcome.map fun _ => (), (b.after (.start kind) outcome).row), t) := by
  rw [Builder.step, Builder.start] at h
  rw [start]
  cases hnode : kind.isNode with
  | true =>
    rw [hnode] at h
    cases h
    rw [Builder.after, row_cons, List.reverse_nil, List.append_nil]
    rfl
  | false =>
    rw [hnode] at h
    cases h
    rfl

/-- A step leads from row to row, and has the same outcome. -/
theorem step_row {step : BuildStep} (h : b.step step s = (outcome, t)) :
    RowBuilder.step step b.row s =
      ((outcome.map fun _ => (), (b.after step outcome).row), t) := by
  cases step with
  | start kind => exact start_row h
  | finish => exact finishNode_row h
  | token kind text leading trailing => exact inStore_fill_row h
  | missing kind => exact inStore_fill_row h
  | absent =>
    cases h
    exact fill_row b none s

/-- A run of steps leads from row to row, and has the same outcome. If a step fails, a row is
left all the same. -/
theorem forM_row {steps : List BuildStep}
    (h : steps.foldlM Builder.step b s = (outcome, t)) :
    ∃ c : Builder, steps.forM step b.row s = ((outcome.map fun _ => (), c.row), t) ∧
      ∀ d, outcome = .ok d → c = d := by
  induction steps generalizing b s with
  | nil =>
    cases h
    exact ⟨b, rfl, fun d hd => Except.ok.inj hd⟩
  | cons first steps ih =>
    rcases hfirst : b.step first s with ⟨made, u⟩
    have hrow := step_row hfirst
    cases made with
    | ok d =>
      rw [List.foldlM_cons, Alloc.bind_eq_of_ok hfirst] at h
      obtain ⟨c, hc, heq⟩ := ih h
      exact ⟨c, (bind_eq_of_ok hrow).trans hc, heq⟩
    | error fault =>
      rw [List.foldlM_cons, Alloc.bind_eq_of_error hfirst] at h
      cases h
      exact ⟨b.left first, bind_eq_of_error hrow, fun d hd => nomatch hd⟩

/-- A row has the tree that the builder has, and the same is wrong with it if it has none. -/
theorem root_row (b : Builder) : b.row.root = b.root := by
  obtain ⟨opened, filled⟩ := b
  cases opened with
  | nil =>
    have hrow : Builder.row ⟨[], filled⟩ = ⟨[], filled.reverse⟩ := by
      simp [Builder.row, Builder.starts, Builder.slots]
    have hlength := @List.length_reverse _ filled
    rw [hrow]
    -- a list of one slot is its own reverse, and of any other only the length is told
    rcases filled with _ | ⟨x, _ | ⟨y, rest⟩⟩
    · rfl
    · rcases x with _ | _ | _ <;> rfl
    · rcases hreverse : (x :: y :: rest).reverse with _ | ⟨u, _ | ⟨v, others⟩⟩ <;>
        rw [hreverse] at hlength
      · cases hlength
      · cases hlength
      · simpa [root, Builder.root] using hlength
  | cons top outer =>
    rw [Builder.root, if_neg (by simp), Builder.openedAfter_eq]
    rfl

end Step

/-- Steps build with one row what they build with the slots of each open node kept apart. The
stores that they leave are the same, and so is what is wrong with steps that build nothing. -/
theorem run_eq_builder_run (steps : List BuildStep) : run steps = Builder.run steps := by
  funext s
  rcases hsteps : steps.foldlM Builder.step {} s with ⟨outcome, t⟩
  obtain ⟨c, hc, heq⟩ := forM_row hsteps
  change steps.forM step {} s = _ at hc
  rw [run, Builder.run, hc]
  cases outcome with
  | ok b =>
    cases heq b rfl
    rw [Alloc.bind_eq_of_ok hsteps]
    change (c.row.root, t) = _
    rw [root_row]
    cases c.root <;> rfl
  | error fault =>
    rw [Alloc.bind_eq_of_error hsteps]
    rfl

end RowBuilder

end Verbatim
