import Verbatim.View
import Verbatim.Text.Quoted

/-!
# Dumps

A dump shows a tree with one line for each element, indented by depth and labelled with the slot the
element stands in. Empty slots are left out.
-/

namespace Verbatim.View

/-- One view on its own, a token with its text. -/
def renderDebug (v : View) : String :=
  if v.isNode then v.render
  else if v.isMissing then v.render ++ " missing"
  else v.render ++ " " ++ Text.quote v.text

/-- Adds the lines of a view to `lines`; the labels of its slots are indented by two more. -/
def dumpInto (indent : Nat) (lines : String) (v : View) : String :=
  if v.isNode then
    v.slots.zipIdx.attach.foldl
      (fun lines ⟨(slot, index), h⟩ =>
        match slot with
        | none => lines
        | some c =>
          have : some c ∈ v.slots := (List.mem_zipIdx' h).2 ▸ List.getElem_mem _
          let label := slotLabel v.kind index
          c.dumpInto (indent + 2)
            (lines ++ "".pushn ' ' (indent + 2) ++ label ++ ": "))
      (lines ++ v.brief ++ "\n")
  else lines ++ v.renderDebug ++ "\n"
termination_by v.green.size
decreasing_by exact size_lt_of_mem_slots ‹_›

/-- The dump of a tree; a token is shown on its own, without a line end. -/
def dump (v : View) : String := if v.isNode then v.dumpInto 0 "" else v.renderDebug

end Verbatim.View
