import Verbatim.Proofs.Histories

/-!
# Transparency of stores

What a store shares, and what it has made before, shows in identities only. A script is a sequence
of calls about what came out of earlier ones. It may be executed in any store of any workspace, with
other steps in between; each of its calls has the same outcome, up to identities, wherever the
script is executed.
-/

namespace Verbatim

/-- What a call is about: the outcome of an earlier call, or what is reached from it by walking down
slots. -/
structure Reference where
  /-- The number of the earlier call. -/
  call : Nat
  /-- The slots on the way down. -/
  path : List Nat := []

/-- The outcomes of calls, the earliest first. -/
abbrev Outcomes := List (Except Fault Handle)

namespace Outcomes

/-- What a reference leads to. -/
def find? (outcomes : Outcomes) (ref : Reference) : Option Handle :=
  (outcomes[ref.call]?).bind fun outcome => outcome.toOption.bind fun h => h.descend? ref.path

/-- The outcomes without identities. -/
def value (outcomes : Outcomes) : Outcomes := outcomes.map fun outcome => outcome.map Handle.value

theorem find?_value (outcomes : Outcomes) (ref : Reference) :
    outcomes.value.find? ref = (outcomes.find? ref).map Handle.value := by
  unfold find? value
  rw [List.getElem?_map]
  rcases outcomes[ref.call]? with _ | fault | h
  · rfl
  · rfl
  · exact h.descend?_value ref.path

/-- Whether a call is what a call about references stands for. -/
def Leads (outcomes : Outcomes) (script : Call Reference Reference Reference)
    (call : Call Green View Builder) : Prop :=
  script.map (fun ref => (outcomes.find? ref).bind Handle.element?)
    (fun ref => (outcomes.find? ref).bind Handle.view?)
    (fun ref => (outcomes.find? ref).bind Handle.builder?) = call.map some some some

end Outcomes

namespace Call

variable {ε ν β ε' ν' β' ε'' ν'' β'' : Type}

theorem map_map (f : ε → ε') (g : ν → ν') (h : β → β') (f' : ε' → ε'') (g' : ν' → ν'')
    (h' : β' → β'') (c : Call ε ν β) :
    (c.map f g h).map f' g' h' =
      c.map (fun x => f' (f x)) (fun x => g' (g x)) fun x => h' (h x) := by
  cases c <;> simp [map, Function.comp_def]

theorem map_id (c : Call ε ν β) : c.map (fun x => x) (fun x => x) (fun x => x) = c := by
  cases c <;> simp [map]

/-- A call can be read off from the call that may be about nothing. -/
theorem eq_of_map_some [Inhabited ε] [Inhabited ν] [Inhabited β] {c c' : Call ε ν β}
    (h : c.map some some some = c'.map some some some) : c = c' := by
  have hback (c : Call ε ν β) : (c.map some some some).map (·.getD default) (·.getD default)
      (·.getD default) = c := (map_map ..).trans c.map_id
  rw [← hback c, h, hback]

end Call

/-- What a call stands for depends on the values of the outcomes alone. -/
theorem Outcomes.Leads.value_eq {outcomes outcomes' : Outcomes}
    {script : Call Reference Reference Reference} {c c' : Call Green View Builder}
    (h : outcomes.Leads script c) (h' : outcomes'.Leads script c')
    (hvalue : outcomes.value = outcomes'.value) : c.value = c'.value := by
  have hmap {outcomes : Outcomes} {c : Call Green View Builder} (h : outcomes.Leads script c) :
      c.value.map some some some =
        script.map (fun ref => (outcomes.value.find? ref).bind Handle.element?)
          (fun ref => (outcomes.value.find? ref).bind Handle.view?)
          (fun ref => (outcomes.value.find? ref).bind Handle.builder?) := by
    have h := congrArg
      (Call.map (Option.map Green.value) (Option.map View.value) (Option.map Builder.value)) h
    rw [Call.map_map, Call.map_map] at h
    rw [Call.value, Call.map_map]
    refine h.symm.trans ?_
    simp only [find?_value, Option.bind_map, Option.map_bind, Function.comp_def,
      Handle.element?_value, Handle.view?_value, Handle.builder?_value]
  refine Call.eq_of_map_some ?_
  rw [hmap h, hmap h', hvalue]

namespace Workspace

/-- The execution of a script in the store with a tag. Between its calls any steps may be taken,
such as letting go of what came out, collecting stores, or making calls for other ends. -/
inductive Executes (tag : Nat) :
    Workspace → Outcomes → List (Call Reference Reference Reference) → Outcomes → Prop where
  | done {w : Workspace} {outcomes : Outcomes} : Executes tag w outcomes [] outcomes
  | step {w w' : Workspace} {outcomes outcomes' : Outcomes}
      {script : List (Call Reference Reference Reference)} (hstep : w.Step w')
      (hrest : Executes tag w' outcomes script outcomes') : Executes tag w outcomes script outcomes'
  | call {w : Workspace} {outcomes outcomes' : Outcomes}
      {first : Call Reference Reference Reference}
      {script : List (Call Reference Reference Reference)} {s : Store}
      {call : Call Green View Builder} (name? : Option String) (hs : s ∈ w.stores)
      (htag : s.tag = tag) (hleads : outcomes.Leads first call)
      (hcall : ∀ g ∈ call.trees, g.InUse w.trees)
      (hrest : Executes tag (w.perform s call name?).2
        (outcomes ++ [(w.perform s call name?).1]) script outcomes') :
      Executes tag w outcomes (first :: script) outcomes'

section

variable {w w' : Workspace} {r r' : Registry} {tag tag' : Nat} {outcomes outcomes' : Outcomes}

/-- Calls with the same value have the same outcome, wherever they are made. -/
theorem Sound.perform_agree (h : w.Sound r) (h' : w'.Sound r') {s s' : Store} (hs : s ∈ w.stores)
    (hs' : s' ∈ w'.stores) {c c' : Call Green View Builder} (hvalue : c.value = c'.value)
    (hc : ∀ g ∈ c.trees, g.InUse w.trees) (hc' : ∀ g ∈ c'.trees, g.InUse w'.trees)
    (name? name?' : Option String) :
    (w.perform s c name?).1.map Handle.value = (w'.perform s' c' name?').1.map Handle.value := by
  have hknows : ∀ g ∈ c.trees, (h.site hs).Knows g := fun g hg => (hc g hg).knows h.held
  have hknows' : ∀ g ∈ c'.trees, (h'.site hs').Knows g := fun g hg => (hc' g hg).knows h'.held
  obtain ⟨f, f', -, -, ⟨fault, hrun, hrun'⟩ | ⟨handle, handle', hrun, hrun', hgood⟩⟩ :=
    Call.agree_act hvalue hknows hknows'
  · rw [perform_eq_of_error (s := s) hrun, perform_eq_of_error (s := s') hrun']
  · rw [perform_eq_of_ok (s := s) hrun, perform_eq_of_ok (s := s') hrun']
    exact congrArg Except.ok hgood.value_eq

theorem Executes.eq_of_nil (h : Executes tag w outcomes [] outcomes') : outcomes' = outcomes := by
  generalize hscript : ([] : List (Call Reference Reference Reference)) = script at h
  induction h with
  | done => rfl
  | step _ _ ih => exact ih hscript
  | call => cases hscript

/-- The first call of a script is made after some steps. -/
theorem Executes.exists_of_cons {first : Call Reference Reference Reference}
    {script : List (Call Reference Reference Reference)} (hw : w.Reachable)
    (h : Executes tag w outcomes (first :: script) outcomes') :
    ∃ (u : Workspace) (s : Store) (call : Call Green View Builder) (name? : Option String),
      u.Reachable ∧ s ∈ u.stores ∧ outcomes.Leads first call ∧
        (∀ g ∈ call.trees, g.InUse u.trees) ∧
        Executes tag (u.perform s call name?).2 (outcomes ++ [(u.perform s call name?).1]) script
          outcomes' := by
  generalize hscript : first :: script = calls at h
  induction h with
  | done => cases hscript
  | step hstep _ ih => exact ih (hw.step hstep) hscript
  | call name? hs _ hleads hcall hrest =>
    cases hscript
    exact ⟨_, _, _, name?, hw, hs, hleads, hcall, hrest⟩

/-- Two executions of a script that start from outcomes with the same values. -/
theorem Executes.value_eq {script : List (Call Reference Reference Reference)}
    {before before' : Outcomes} (hw : w.Reachable) (hw' : w'.Reachable)
    (h : Executes tag w before script outcomes) (h' : Executes tag' w' before' script outcomes')
    (hbefore : before.value = before'.value) : outcomes.value = outcomes'.value := by
  induction script generalizing w w' before before' with
  | nil => rw [h.eq_of_nil, h'.eq_of_nil, hbefore]
  | cons first script ih =>
    obtain ⟨u, s, c, name?, hu, hs, hleads, hc, hrest⟩ := h.exists_of_cons hw
    obtain ⟨u', s', c', name?', hu', hs', hleads', hc', hrest'⟩ := h'.exists_of_cons hw'
    obtain ⟨r, hr⟩ := hu.exists_sound
    obtain ⟨r', hr'⟩ := hu'.exists_sound
    have hout := hr.perform_agree hr' hs hs' (hleads.value_eq hleads' hbefore) hc hc' name? name?'
    refine ih (hu.step (.call name? hs hc)) (hu'.step (.call name?' hs' hc')) hrest hrest' ?_
    simp only [Outcomes.value, List.map_append] at hbefore ⊢
    rw [hbefore, List.map_singleton, List.map_singleton, hout]

/-- Every script has the same outcomes in any two stores of workspaces that can be reached, up to
identities: the same calls fail, for the same reasons, and all elements that come out of the others
are equal by value. In particular a text has the same tree in every store. -/
theorem Reachable.outcomes_agree (hw : w.Reachable) (hw' : w'.Reachable) :
    (∀ (tag tag' : Nat) (script : List (Call Reference Reference Reference))
        (outcomes outcomes' : Outcomes), Executes tag w [] script outcomes →
        Executes tag' w' [] script outcomes' →
        outcomes.value = outcomes'.value ∧
          ∀ (ref : Reference) (g g' : Green),
            (outcomes.find? ref).bind Handle.element? = some g →
            (outcomes'.find? ref).bind Handle.element? = some g' → g.sameValue g' = true) ∧
      ∀ s ∈ w.stores, ∀ s' ∈ w'.stores, ∀ text : String,
        (∃ fault, (parse text s).1 = .error fault ∧ (parse text s').1 = .error fault) ∨
          ∃ v v', (parse text s).1 = .ok v ∧ (parse text s').1 = .ok v' ∧
            v.green.sameValue v'.green = true := by
  constructor
  · intro tag tag' script outcomes outcomes' h h'
    have hvalue : outcomes.value = outcomes'.value := h.value_eq hw hw' h' rfl
    refine ⟨hvalue, fun ref g g' hg hg' => Green.sameValue_of_value_eq ?_⟩
    have hfind (outcomes : Outcomes) : ((outcomes.find? ref).bind Handle.element?).map Green.value =
        (outcomes.value.find? ref).bind Handle.element? := by
      rw [Outcomes.find?_value]
      cases outcomes.find? ref with
      | none => rfl
      | some h => exact h.element?_value.symm
    have hboth := (hfind outcomes).trans (hvalue ▸ (hfind outcomes').symm)
    rw [hg, hg'] at hboth
    exact Option.some.inj hboth
  · intro s hs s' hs' text
    obtain ⟨r, h⟩ := hw.exists_sound
    obtain ⟨r', h'⟩ := hw'.exists_sound
    have hagree : Alloc.Agree _ _ (h.site hs) (h'.site hs') _ := agree_parse text
    obtain ⟨f, f', -, -, ⟨fault, hrun, hrun'⟩ | ⟨v, v', hrun, hrun', g, g', rfl, rfl, hg, -⟩⟩ :=
      hagree
    · exact .inl ⟨fault, congrArg Prod.fst hrun, congrArg Prod.fst hrun'⟩
    · exact .inr ⟨_, _, congrArg Prod.fst hrun, congrArg Prod.fst hrun',
        Green.sameValue_of_value_eq hg.value_eq⟩

/-- A placeholder is made and wrapped up twice over, in a store that shares it and in one that
shares nothing. -/
theorem Reachable.outcomes_agree_configs :
    ∃ (w w' : Workspace) (outcomes outcomes' : Outcomes), w.Reachable ∧ w'.Reachable ∧
      Executes 0 w [] [.missingNode .typeName, .unexpected [⟨0, []⟩, ⟨0, []⟩]] outcomes ∧
      Executes 0 w' [] [.missingNode .typeName, .unexpected [⟨0, []⟩, ⟨0, []⟩]] outcomes' ∧
      (w.stores.map fun s => s.config) = [⟨3, true⟩] ∧
      (w'.stores.map fun s => s.config) = [⟨0, false⟩] ∧ outcomes.value = outcomes'.value := by
  have hrun {config : StoreConfig} {s : Store} {a : Green} (htag : s.tag = 0)
      (hact : (Call.missingNode .typeName).act { tag := 0, config } = (.ok (.green a), s)) :
      ∃ outcomes, Executes 0 (Workspace.ofStore "store" config) []
        [.missingNode .typeName, .unexpected [⟨0, []⟩, ⟨0, []⟩]] outcomes := by
    let w := ((Workspace.ofStore "store" config).putStore s).hold "a" (.green a)
    have hs : s ∈ w.stores := by
      simp [w, Workspace.ofStore, putStore, hold, dropStores, isAlive, htag]
    have hcall : ∀ g ∈ (Call.unexpected [a, a]).trees, g.InUse w.trees := by
      intro g hg
      obtain rfl : g = a := by simpa [Call.trees] using hg
      exact .of_mem List.mem_cons_self
    have hfirst : Outcomes.Leads [] (.missingNode .typeName) (.missingNode .typeName) := rfl
    have hsecond : Outcomes.Leads [.ok (.green a)] (.unexpected [⟨0, []⟩, ⟨0, []⟩])
        (.unexpected [a, a]) := rfl
    obtain ⟨outcomes, hrest⟩ : ∃ outcomes, Executes 0 w [.ok (.green a)]
        [.unexpected [⟨0, []⟩, ⟨0, []⟩]] outcomes := ⟨_, .call none hs htag hsecond hcall .done⟩
    refine ⟨outcomes, .call (some "a") List.mem_cons_self rfl hfirst (by simp [Call.trees]) ?_⟩
    rw [perform_eq_of_ok hact]
    exact hrest
  have hw (config : StoreConfig) : (Workspace.ofStore "store" config).Reachable :=
    .ofStore "store" config
  obtain ⟨outcomes, h⟩ := @hrun {} _ _ rfl
    (Alloc.map_eq_of_ok (Alloc.missingNode_eq_small (by decide) (by decide) (by simp)))
  obtain ⟨outcomes', h'⟩ := @hrun ⟨0, false⟩ _ _ rfl
    (Alloc.map_eq_of_ok (Alloc.missingNode_eq_large (by decide) (by decide)))
  exact ⟨_, _, outcomes, outcomes', hw {}, hw ⟨0, false⟩, h, h', rfl, rfl,
    (((hw {}).outcomes_agree (hw ⟨0, false⟩)).1 0 0 _ outcomes outcomes' h h').1⟩

end

end Workspace

end Verbatim
