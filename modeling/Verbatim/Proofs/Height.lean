import Verbatim.Proofs.Height.Towers
import Verbatim.Proofs.Lexical.Spelling
import Verbatim.Proofs.Recovery
import Verbatim.Proofs.Standing

/-!
# How many expressions stand above each other in a tree

The expressions on a path through the tree of a text are counted by the heights of the items that
the grammar draws. So the bound on heights is a bound on paths, and every height that words can be
read with occurs in a tree: a text is spelled out for the words, and their kinds decide the height.
-/

namespace Verbatim

namespace View

/-- Number of expressions among a view and its ancestors. -/
def exprCount (v : View) : Nat := v.ancestors.countP fun a => a.kind.isExpr

theorem exprCount_root (store : Nat) (g : Green) :
    (root store g).exprCount = (root store g).kind.isExpr.toNat := by
  rw [exprCount, ancestors, List.countP_cons]
  cases (root store g).kind.isExpr <;> rfl

theorem kind_child (v : View) (index offset : Nat) (g : Green) :
    (child v index offset g).kind = g.kind := rfl

theorem exprCount_child (v : View) (index offset : Nat) (g : Green) :
    (child v index offset g).exprCount = v.exprCount + g.kind.isExpr.toNat := by
  rw [exprCount, ancestors, List.countP_cons]
  cases hkind : g.kind.isExpr <;> simp [exprCount, kind_child, hkind]

end View

namespace Sketch

/-- No token is an expression. -/
theorem isExpr_le_exprHeight {s : Sketch} {g : Green} (h : s.Built (some g)) (hs : s.Conforms) :
    g.kind.isExpr.toNat ≤ s.exprHeight := by
  have hkind := h.kind_eq
  cases s with
  | token t =>
    have hexpr : t.kind.isExpr = false := by
      have htoken : t.kind.isToken = true := hs
      revert htoken
      cases t.kind <;> decide
    simp only [Option.map_some, kind?, Option.some.injEq] at hkind
    simp [hkind, hexpr]
  | missing kind =>
    simp only [Option.map_some, kind?, Option.some.injEq] at hkind
    simp [hkind, exprHeight]
  | absent => cases h
  | node kind late slots =>
    simp only [Option.map_some, kind?, Option.some.injEq] at hkind
    simp [hkind, exprHeight]

/-- Each of the sketches was built in its slot. -/
theorem BuiltAll.getElem? {front back : List Sketch} {s : Sketch} {built : List Slot}
    (h : BuiltAll (front ++ s :: back) built) :
    ∃ slot, built[front.length]? = some slot ∧ s.Built slot := by
  induction front generalizing built with
  | nil =>
    obtain ⟨slot, rest, rfl, hs, -⟩ := h
    exact ⟨slot, rfl, hs⟩
  | cons t front ih =>
    obtain ⟨slot, rest, rfl, -, hrest⟩ := h
    exact ih hrest

/-- The highest of some slots is as high as they are. -/
theorem exists_exprHeight_eq {slots : List Sketch} (h : 0 < exprHeightOf slots) :
    ∃ s ∈ slots, s.exprHeight = exprHeightOf slots := by
  induction slots with
  | nil => cases h
  | cons s slots ih =>
    rw [exprHeightOf] at h ⊢
    by_cases hle : exprHeightOf slots ≤ s.exprHeight
    · exact ⟨s, List.mem_cons_self, by omega⟩
    · obtain ⟨t, ht, heq⟩ := ih (by omega)
      exact ⟨t, List.mem_cons_of_mem _ ht, by omega⟩

end Sketch

namespace View

variable {s : Sketch} {v d : View}

/-- Below a view stand no more expressions above each other than its sketch is high. -/
theorem exprCount_le_of_built (hs : s.Built (some v.green)) (hconforms : s.Conforms)
    {path : List Nat} (hd : v.descend? path = some d) :
    d.exprCount + v.kind.isExpr.toNat ≤ v.exprCount + s.exprHeight := by
  induction path generalizing s v with
  | nil =>
    cases hd
    exact Nat.add_le_add_left (Sketch.isExpr_le_exprHeight hs hconforms) _
  | cons index path ih =>
    obtain ⟨c, hc, hd⟩ := Option.bind_eq_some_iff.mp hd
    rw [slot?_eq, Option.map_eq_some_iff] at hc
    obtain ⟨g, hg, rfl⟩ := hc
    have hmem : some g ∈ v.green.slots := List.mem_of_getElem? (Option.join_eq_some_iff.mp hg)
    obtain ⟨kind, late, slots, rfl, hkind, t, ht, hbuilt⟩ := hs.exists_node_of_slot hmem
    have hbelow := ih hbuilt (hconforms.of_mem ht) hd
    have hheight := Sketch.exprHeight_le_of_mem ht
    have hv : v.kind = kind := hkind
    simp only [exprCount_child, kind_child, Sketch.exprHeight, hv] at hbelow ⊢
    omega

/-- Somewhere below a view as many expressions stand above each other as its sketch is high. -/
theorem exists_exprCount_of_built (hs : s.Built (some v.green)) :
    ∃ path d, v.descend? path = some d ∧
      v.exprCount + s.exprHeight ≤ d.exprCount + v.kind.isExpr.toNat := by
  induction s using Sketch.induct generalizing v with
  | token t | absent => exact ⟨[], v, rfl, Nat.le_add_right ..⟩
  | missing kind =>
    have hkind : v.kind = kind := Option.some.inj hs.kind_eq
    exact ⟨[], v, rfl, by rw [hkind]; exact Nat.le_refl _⟩
  | node kind late slots ih =>
    have hkind : v.kind = kind := Option.some.inj hs.kind_eq
    by_cases hflat : Sketch.exprHeightOf slots = 0
    · exact ⟨[], v, rfl, by rw [hkind, Sketch.exprHeight, hflat]; exact Nat.le_refl _⟩
    · obtain ⟨t, ht, hheight⟩ := Sketch.exists_exprHeight_eq (Nat.pos_of_ne_zero hflat)
      obtain ⟨front, back, rfl⟩ := List.append_of_mem ht
      obtain ⟨id, built, hg, hbuilt⟩ := hs
      obtain ⟨slot, hslot, hbuilt⟩ := hbuilt.getElem?
      have hslots : v.green.slots = built := congrArg Green.slots (Option.some.inj hg)
      cases slot with
      | none =>
        obtain rfl := hbuilt.eq_absent
        exact absurd hheight.symm hflat
      | some g =>
        obtain ⟨path, d, hd, hcount⟩ := ih t ht
          (v := .child v front.length (v.offset + Green.slotsWidth (built.take front.length)) g)
          hbuilt
        refine ⟨front.length :: path, d, ?_, ?_⟩
        · rw [descend?, slot?_eq, hslots, hslot]
          exact hd
        · simp only [exprCount_child, kind_child, Sketch.exprHeight, hkind] at hcount ⊢
          omega

end View

namespace Sketch

theorem exprHeight_file (items : List Sketch) (eof : Token) :
    (file items eof).exprHeight = exprHeightOf items := by
  simp [file, exprHeight, exprHeightOf, Kind.isExpr]

mutual
/-- What tokens hold is of no height. -/
theorem exprHeight_bare : ∀ s : Sketch, s.bare.exprHeight = s.exprHeight
  | .token _ | .missing _ | .absent => rfl
  | .node kind late slots => by rw [bare, exprHeight, exprHeight, exprHeightOf_bareAll slots]
/-- What the tokens of several slots hold is of no height. -/
theorem exprHeightOf_bareAll : ∀ slots : List Sketch,
    exprHeightOf (bareAll slots) = exprHeightOf slots
  | [] => rfl
  | s :: rest => by
    rw [bareAll, exprHeightOf, exprHeightOf, exprHeight_bare s, exprHeightOf_bareAll rest]
end

end Sketch

namespace Green.Parsed

variable {g : Green} {text : String} {items : List Sketch} {n : Nesting}

/-- Nowhere in the tree of a text do more expressions stand above each other than its items are
high. -/
theorem exprCount_le (h : g.Parsed text items n) (store : Nat) {path : List Nat} {d : View}
    (hd : (View.root store g).descend? path = some d) :
    d.exprCount ≤ Sketch.exprHeightOf items := by
  have hcount := View.exprCount_le_of_built h.built h.reads.conforms_file hd
  rw [View.exprCount_root, Sketch.exprHeight_file] at hcount
  omega

/-- Somewhere in the tree of a text as many expressions stand above each other as its items are
high. -/
theorem exists_exprCount_eq (h : g.Parsed text items n) (store : Nat) :
    ∃ path d, (View.root store g).descend? path = some d ∧
      d.exprCount = Sketch.exprHeightOf items := by
  obtain ⟨path, d, hd, hcount⟩ := View.exists_exprCount_of_built (v := .root store g) h.built
  have hle := h.exprCount_le store hd
  rw [View.exprCount_root, Sketch.exprHeight_file] at hcount
  exact ⟨path, d, hd, by omega⟩

end Green.Parsed

namespace Kind

theorem isSolid_pairs {a b : Kind} (ha : a.isSolid = true) (hb : b.isSolid = true) (count : Nat) :
    (pairs a b count).all isSolid = true := by
  induction count with
  | zero => rfl
  | succ count ih => simp [pairs, ha, hb, ih]

theorem isSolid_tower (l : Nat) : (tower l).all isSolid = true := by
  induction l with
  | zero => rfl
  | succ l ih =>
    have hcalls : (calls (l + 1)).all isSolid = true := isSolid_pairs rfl rfl _
    have hsums : (sums (l + 1)).all isSolid = true := isSolid_pairs rfl rfl _
    simp only [tower, List.all_cons, List.all_append, ih, hcalls, hsums]
    rfl

/-- The text of a variable whose value consists of words of these kinds. -/
def declared (kinds : List Kind) : String :=
  String.ofList (spelled (.letKw :: .ident :: .eq :: kinds))

theorem toList_join_replicate {a b : Kind} {words : String} (hwords : words.toList = spelled [a, b])
    (count : Nat) :
    (String.join (List.replicate count words)).toList = spelled (pairs a b count) := by
  rw [String.toList_join]
  induction count with
  | zero => rfl
  | succ count ih =>
    rw [List.replicate_succ, List.flatMap_cons, ih, hwords]
    simp [pairs, spelled]

/-- The text of a number with calls and sums behind it. -/
theorem declared_row (count more : Nat) :
    declared (.intNumber :: (calls count ++ sums more)) =
      "let x = 1 " ++ String.join (List.replicate count "( ) ") ++
        String.join (List.replicate more "+ 1 ") := by
  apply String.toList_inj.mp
  have hlet : "let x = 1 ".toList = spelled [.letKw, .ident, .eq, .intNumber] := rfl
  have hcalls : (String.join (List.replicate count "( ) ")).toList = spelled (calls count) :=
    toList_join_replicate rfl count
  have hsums : (String.join (List.replicate more "+ 1 ")).toList = spelled (sums more) :=
    toList_join_replicate rfl more
  rw [declared, String.toList_ofList, String.toList_append, String.toList_append, hlet, hcalls,
    hsums]
  simp [spelled]

end Kind

variable {st : Store}

/-- An expression that can be read from words occurs in a tree with its whole height. -/
theorem Reads.exists_exprCount_eq {kinds : List Kind} {s : Sketch} {n : Nesting}
    (h : Reads Phrase.expr (.before kinds {}) [s] (.before [] n)) (hst : st.Coherent)
    (hsolid : kinds.all Kind.isSolid = true) (hlen : kinds.length < 1 <<< 24) :
    ∃ v r path d, parse (Kind.declared kinds) st = (.ok v, r) ∧
      v.descend? path = some d ∧ d.exprCount = s.exprHeight := by
  obtain ⟨items', n', hheight, hitems'⟩ := items_let h
  have hall : (Kind.letKw :: .ident :: .eq :: kinds).all Kind.isSolid = true := hsolid
  have hkinds := kind_tokenize_spelled (List.all_eq_true.mp hall)
  have hbytes := Kind.utf8ByteSize_spelled_le (.letKw :: .ident :: .eq :: kinds)
  have hlimit : (Kind.declared kinds).utf8ByteSize < 1 <<< 28 := by
    simp only [List.length_cons] at hbytes
    rw [Kind.declared]
    omega
  obtain ⟨v, r, hparse⟩ := exists_parse_eq_ok hst hlimit
  obtain ⟨-, g, items, y, rfl, -, hparsed⟩ := exists_of_parse_eq_ok hst hparse
  have hbare : Sketch.bareAll items = Sketch.bareAll items' := by
    refine hparsed.reads.bareAll_items hitems' (hkinds.trans ?_)
    simp [Token.ofKind, Function.comp_def]
  obtain ⟨path, d, hd, hcount⟩ := hparsed.exists_exprCount_eq st.tag
  refine ⟨_, r, path, d, hparse, hd, ?_⟩
  rw [hcount, ← Sketch.exprHeightOf_bareAll, hbare, Sketch.exprHeightOf_bareAll, hheight]

/-- Calls and sums behind a number all stand above each other, if there are fewer of each than the
nesting limit. -/
theorem exists_exprCount_row (hst : st.Coherent) {count more : Nat} (hcount : count < maxNesting)
    (hmore : more < maxNesting) :
    ∃ v r path d,
      parse ("let x = 1 " ++ String.join (List.replicate count "( ) ") ++
        String.join (List.replicate more "+ 1 ")) st = (.ok v, r) ∧
      v.descend? path = some d ∧ d.exprCount = count + more + 1 := by
  obtain ⟨s, n, hheight, hreads⟩ := Reads.exists_row hcount hmore
  have hsolid :
      (Kind.intNumber :: (Kind.calls count ++ Kind.sums more)).all Kind.isSolid = true := by
    rw [List.all_cons, List.all_append, Kind.isSolid_pairs rfl rfl, Kind.isSolid_pairs rfl rfl]
    rfl
  have hlen : (Kind.intNumber :: (Kind.calls count ++ Kind.sums more)).length < 1 <<< 24 := by
    have hlimit : maxNesting = 256 := rfl
    rw [List.length_cons, List.length_append, Kind.length_pairs, Kind.length_pairs]
    omega
  rw [← Kind.declared_row, ← hheight]
  exact hreads.exists_exprCount_eq hst hsolid hlen

/-- No path through a tree has more expressions on it than the square of the nesting limit and one,
and some path has so many: the limit bounds the levels that are held at a time, and each of them can
be taken again for what is put around the finished expression. -/
theorem parse_exprCount_le_square (hst : st.Coherent) :
    (∀ text v r, parse text st = (.ok v, r) → ∀ path d, v.descend? path = some d →
        d.exprCount ≤ maxNesting * maxNesting + 1) ∧
      ∃ text v r path d, parse text st = (.ok v, r) ∧ v.descend? path = some d ∧
        d.exprCount = maxNesting * maxNesting + 1 := by
  constructor
  · intro text v r hparse path d hd
    obtain ⟨-, g, items, y, rfl, -, hparsed⟩ := exists_of_parse_eq_ok hst hparse
    exact Nat.le_trans (hparsed.exprCount_le st.tag hd) hparsed.reads.exprHeightOf_items_le
  · obtain ⟨s, n, hheight, hreads⟩ := Reads.exists_highest
    have hsolid : (Kind.tower (maxNesting - 1) ++ [Kind.plus]).all Kind.isSolid = true := by
      rw [List.all_append, Kind.isSolid_tower]
      rfl
    have hlen : (Kind.tower (maxNesting - 1) ++ [Kind.plus]).length < 1 <<< 24 := by
      rw [List.length_append, Kind.length_tower]
      decide
    obtain ⟨v, r, path, d, hparse, hd, hcount⟩ := hreads.exists_exprCount_eq hst hsolid hlen
    exact ⟨_, v, r, path, d, hparse, hd, hcount.trans hheight⟩

/-- The bound is met by trees in a new store. -/
theorem parse_exprCount_le_square_empty :
    ({ tag := 0 } : Store).Coherent ∧
      (∀ text v r, parse text { tag := 0 } = (.ok v, r) → ∀ path d, v.descend? path = some d →
        d.exprCount ≤ 65537) ∧
      ∃ text v r path d, parse text { tag := 0 } = (.ok v, r) ∧ v.descend? path = some d ∧
        d.exprCount = 65537 :=
  ⟨Store.coherent_empty 0 {}, parse_exprCount_le_square (Store.coherent_empty 0 {})⟩

/-- More expressions stand above each other than the nesting limit and one: the calls give their
levels back before the sums are read. -/
theorem parse_exprCount_calls_sums :
    ∃ v r path d,
      parse ("let x = 1 " ++ String.join (List.replicate 255 "( ) ") ++
        String.join (List.replicate 2 "+ 1 ")) { tag := 0 } = (.ok v, r) ∧
      v.descend? path = some d ∧ d.exprCount = maxNesting + 2 :=
  exists_exprCount_row (Store.coherent_empty 0 {}) (by decide) (by decide)

end Verbatim
