import Dataflow.Document.Build
import Dataflow.Proofs.Checks
import Mathlib.Data.List.Forall2
import Mathlib.Data.List.Nodup

/-!
# Rules of a document

When a rule of a document can be built, and what is built then. `RuleEntry.Consistent` says it in
terms of the document: nodes are names of kinds, positions exist, and edges lead forward, are not
repeated and reach every position. None of this depends on the order in which things are looked at,
although the checks have one. `RuleEntry.Describes` says what the rule looks like.

The checks of a rule as such are exact: nothing speaks against its parts exactly if they are well
formed (`Rule.fault?_eq_none_iff`).
-/

namespace Dataflow

/-! ### Lists of checks -/

namespace Check

variable {ε α β : Type}

theorem mapM_eq_ok_iff {f : α → Except ε β} {l : List α} {l' : List β} :
    l.mapM f = .ok l' ↔ List.Forall₂ (fun a b ↦ f a = .ok b) l l' := by
  induction l generalizing l' with
  | nil => rw [List.mapM_nil, pure_eq_ok_iff, List.forall₂_nil_left_iff, eq_comm]
  | cons a l ih =>
    simp only [List.mapM_cons, bind_eq_ok_iff, pure_eq_ok_iff, ih, List.forall₂_cons_left_iff]
    constructor
    · rintro ⟨b, hb, l', hl', rfl⟩
      exact ⟨b, l', hb, hl', rfl⟩
    · rintro ⟨b, l', hb, hl', rfl⟩
      exact ⟨b, hb, l', hl', rfl⟩

theorem exists_mapM_eq_ok_iff {f : α → Except ε β} {l : List α} :
    (∃ l', l.mapM f = .ok l') ↔ ∀ a ∈ l, ∃ b, f a = .ok b := by
  simp only [mapM_eq_ok_iff]
  induction l with
  | nil => exact iff_of_true ⟨[], .nil⟩ nofun
  | cons a l ih =>
    rw [List.forall_mem_cons, ← ih]
    constructor
    · rintro ⟨_, _ | ⟨hab, hl⟩⟩
      exact ⟨⟨_, hab⟩, _, hl⟩
    · rintro ⟨⟨b, hab⟩, l', hl⟩
      exact ⟨b :: l', .cons hab hl⟩

end Check

/-! ### Parts of a rule -/

namespace Rule

variable {name : String} {n : Nat} {nodes : List Pattern} {edges : List (Nat × Nat)}
  {required : List Bool}

theorem edgeFault?_eq_none_iff {earlier : List (Nat × Nat)} :
    edgeFault? name n earlier edges = none ↔
      (∀ e ∈ edges, e.1 < e.2 ∧ e.2 < n) ∧ edges.Nodup ∧ ∀ e ∈ edges, e ∉ earlier := by
  refine ⟨edgeFault?_eq_none, ?_⟩
  rintro ⟨hforward, hnodup, hfresh⟩
  induction edges generalizing earlier with
  | nil => rfl
  | cons e rest ih =>
    obtain ⟨he, hforward⟩ := List.forall_mem_cons.1 hforward
    obtain ⟨hmem, hnodup⟩ := List.nodup_cons.1 hnodup
    obtain ⟨hearlier, hfresh⟩ := List.forall_mem_cons.1 hfresh
    rw [edgeFault?, if_neg (not_not.2 he), if_neg hearlier]
    refine ih hforward hnodup fun d hd hd' ↦ ?_
    rcases List.mem_cons.1 hd' with rfl | hd'
    · exact hmem hd
    · exact hfresh d hd hd'

theorem unreachable?_eq_none_iff :
    unreachable? n edges = none ↔ ∀ j, 0 < j → j < n → ∃ e ∈ edges, e.2 = j := by
  refine ⟨unreachable?_eq_none, fun h ↦ List.find?_eq_none.2 fun j hj hbad ↦ ?_⟩
  obtain ⟨hpos, hall⟩ := Bool.and_eq_true_iff.1 hbad
  obtain ⟨e, he, rfl⟩ := h j (of_decide_eq_true hpos) (List.mem_range.1 hj)
  simpa using List.all_eq_true.1 hall e he

/-- **Nothing speaks against parts that are well formed.** -/
theorem fault?_eq_none_iff :
    fault? name nodes edges required = none ↔ WellFormed nodes edges required := by
  refine ⟨wellFormed_of_fault?, fun h ↦ ?_⟩
  have hedges : edgeFault? name nodes.length [] edges = none :=
    edgeFault?_eq_none_iff.2 ⟨h.forward, h.nodup, fun _ _ ↦ List.not_mem_nil⟩
  rw [fault?, if_neg h.nodes_ne_nil, if_neg (not_not.2 h.length_required),
    if_neg (not_not.2 h.anchor_required), hedges]
  exact Option.map_eq_none_iff.2 (unreachable?_eq_none_iff.2 h.exists_edge)

theorem ofParts_eq_ok_iff {r : Rule} :
    ofParts name nodes edges required = .ok r ↔
      r.name = name ∧ r.nodes = nodes ∧ r.edges = edges ∧ r.required = required := by
  constructor
  · intro h
    rw [ofParts] at h
    split at h <;> cases h
    exact ⟨rfl, rfl, rfl, rfl⟩
  · rintro ⟨rfl, rfl, rfl, rfl⟩
    rw [ofParts]
    split
    next e he =>
      rw [fault?_eq_none_iff.2 r.wellFormed] at he
      cases he
    next => rfl

theorem exists_ofParts_iff :
    (∃ r, ofParts name nodes edges required = .ok r) ↔ WellFormed nodes edges required := by
  constructor
  · rintro ⟨r, h⟩
    obtain ⟨-, rfl, rfl, rfl⟩ := ofParts_eq_ok_iff.1 h
    exact r.wellFormed
  · intro h
    exact ⟨⟨name, nodes, edges, required, h⟩, ofParts_eq_ok_iff.2 ⟨rfl, rfl, rfl, rfl⟩⟩

end Rule

/-! ### Entries -/

namespace RuleEntry

/-- **Rules that make sense.** Every node is the name of a kind, or `any`; there is at least one,
and the first may not stay empty; positions that may stay empty exist, and so does the one that the
action is about; edges lead forward to nodes that exist, none is repeated, and every node but the
first is the target of one. -/
structure Consistent (r : RuleEntry) : Prop where
  patterns : ∀ text ∈ r.nodes, ∃ pattern, Pattern.parse? text = some pattern
  nodes_pos : 0 < r.nodes.length
  optional : ∀ j ∈ r.optional, j.toNat < r.nodes.length
  anchor_required : 0 ∉ r.optional
  action : ∀ j, r.action.position? = some j → j.toNat < r.nodes.length
  forward : ∀ e ∈ r.edges, e.1 < e.2 ∧ e.2.toNat < r.nodes.length
  nodup : r.edges.Nodup
  exists_edge : ∀ j, 0 < j → j < r.nodes.length → ∃ e ∈ r.edges, e.2.toNat = j

/-- **What is built.** `order` is the walker if the entry does not name one. -/
structure Describes (r : RuleEntry) (order : WalkOrder) (b : BuiltRule) : Prop where
  name : b.rule.name = r.name
  nodes : r.nodes.map Pattern.parse? = b.rule.nodes.map some
  edges : b.rule.edges = r.edges.map fun e ↦ (e.1.toNat, e.2.toNat)
  required : ∀ j < r.nodes.length, b.rule.isRequired j ↔ ∀ i ∈ r.optional, i.toNat ≠ j
  action : b.action = r.action
  walker : b.walker = r.walker?.getD order

/-- The edges of an entry as edges of a rule. -/
def edgePairs (r : RuleEntry) : List (Nat × Nat) :=
  r.edges.map fun e ↦ (e.1.toNat, e.2.toNat)

/-- For every position, whether the entry demands an operator there. -/
def requiredFlags (r : RuleEntry) (n : Nat) : List Bool :=
  (List.range n).map fun j ↦ !(r.optional.map UInt64.toNat).contains j

theorem requiredFlags_iff {r : RuleEntry} {n j : Nat} (hj : j < n) :
    (r.requiredFlags n)[j]? = some true ↔ ∀ i ∈ r.optional, i.toNat ≠ j := by
  rw [requiredFlags, List.getElem?_map, List.getElem?_range hj, Option.map_some, Option.some_inj,
    Bool.not_eq_true', List.contains_eq_mem, decide_eq_false_iff_not, List.mem_map]
  exact ⟨fun h i hi hij ↦ h ⟨i, hi, hij⟩, fun h ⟨i, hi, hij⟩ ↦ h i hi hij⟩

/-- Numbers are as different as the words that they come from. -/
theorem nodup_edgePairs_iff {r : RuleEntry} : r.edgePairs.Nodup ↔ r.edges.Nodup := by
  refine List.nodup_map_iff fun e d h ↦ ?_
  obtain ⟨h₁, h₂⟩ := Prod.mk.inj h
  exact Prod.ext (UInt64.toNat_inj.1 h₁) (UInt64.toNat_inj.1 h₂)

theorem wellFormed_iff {r : RuleEntry} {nodes : List Pattern} :
    Rule.WellFormed nodes r.edgePairs (r.requiredFlags nodes.length) ↔
      0 < nodes.length ∧ 0 ∉ r.optional ∧
      (∀ e ∈ r.edges, e.1 < e.2 ∧ e.2.toNat < nodes.length) ∧ r.edges.Nodup ∧
      ∀ j, 0 < j → j < nodes.length → ∃ e ∈ r.edges, e.2.toNat = j := by
  have hanchor (hpos : 0 < nodes.length) :
      (r.requiredFlags nodes.length)[0]? = some true ↔ 0 ∉ r.optional := by
    rw [requiredFlags_iff hpos]
    refine ⟨fun h hmem ↦ h 0 hmem rfl, fun h i hi hzero ↦ h ?_⟩
    rwa [UInt64.toNat_inj.1 (hzero.trans UInt64.toNat_zero.symm)] at hi
  constructor
  · intro h
    have hpos := List.length_pos_iff.2 h.nodes_ne_nil
    refine ⟨hpos, (hanchor hpos).1 h.anchor_required, fun e he ↦ ?_,
      nodup_edgePairs_iff.1 h.nodup, fun j h₀ hj ↦ ?_⟩
    · exact h.forward _ (List.mem_map_of_mem he)
    · obtain ⟨_, hmem, rfl⟩ := h.exists_edge j h₀ hj
      obtain ⟨e, he, rfl⟩ := List.mem_map.1 hmem
      exact ⟨e, he, rfl⟩
  · rintro ⟨hpos, hrequired, hforward, hnodup, hedge⟩
    refine ⟨List.length_pos_iff.1 hpos, ?_, (hanchor hpos).2 hrequired,
      List.forall_mem_map.2 hforward, nodup_edgePairs_iff.2 hnodup, fun j h₀ hj ↦ ?_⟩
    · rw [requiredFlags, List.length_map, List.length_range]
    · obtain ⟨e, he, rfl⟩ := hedge j h₀ hj
      exact ⟨_, List.mem_map_of_mem he, rfl⟩

theorem resolvePattern_eq_ok_iff {rule text : String} {pattern : Pattern} :
    Document.resolvePattern rule text = .ok pattern ↔ Pattern.parse? text = some pattern := by
  rw [Document.resolvePattern]
  split <;> simp_all

theorem mapM_resolvePattern_iff {r : RuleEntry} {nodes : List Pattern} :
    r.nodes.mapM (Document.resolvePattern r.name) = .ok nodes ↔
      r.nodes.map Pattern.parse? = nodes.map some := by
  rw [Check.mapM_eq_ok_iff, ← List.forall₂_eq_eq_eq, List.forall₂_map_left_iff,
    List.forall₂_map_right_iff]
  simp only [resolvePattern_eq_ok_iff]

theorem mapError_eq_ok_iff {ε δ α : Type} {f : ε → δ} {x : Except ε α} {a : α} :
    x.mapError f = .ok a ↔ x = .ok a := by
  cases x <;> simp [Except.mapError]

theorem buildRule_eq_ok_iff {r : RuleEntry} {order : WalkOrder} {b : BuiltRule} :
    Document.buildRule order r = .ok b ↔ ∃ nodes rule,
      r.nodes.map Pattern.parse? = nodes.map some ∧
      (∀ j ∈ r.optional, j.toNat < nodes.length) ∧
      (∀ j, r.action.position? = some j → j.toNat < nodes.length) ∧
      Rule.ofParts r.name nodes r.edgePairs (r.requiredFlags nodes.length) = .ok rule ∧
      b = ⟨rule, r.action, r.walker?.getD order⟩ := by
  rw [Document.buildRule, Check.bind_eq_ok_iff]
  simp only [mapM_resolvePattern_iff]
  refine exists_congr fun nodes ↦ ?_
  rw [exists_and_left]
  refine and_congr_right fun hnodes ↦ ?_
  have hrule : ∀ x : Except RuleError Rule,
      ((do let rule ← x.mapError DocumentError.rule
           pure (⟨rule, r.action, r.walker?.getD order⟩ : BuiltRule)) = .ok b ↔
        ∃ rule, x = .ok rule ∧ b = ⟨rule, r.action, r.walker?.getD order⟩) := fun x ↦ by
    rw [Check.bind_eq_ok_iff]
    simp only [mapError_eq_ok_iff, Check.pure_eq_ok_iff, eq_comm (a := b)]
  -- First the positions that may stay empty are looked at, then the one of the action.
  cases hfind : r.optional.find? fun n ↦ decide (nodes.length ≤ n.toNat) with
  | some position =>
    have hbad := List.find?_some hfind
    refine iff_of_false Check.throw_ne_ok ?_
    rintro ⟨rule, hoptional, -⟩
    exact absurd (hoptional position (List.mem_of_find?_eq_some hfind)) (by simpa using hbad)
  | none =>
    have hoptional : ∀ j ∈ r.optional, j.toNat < nodes.length := by
      simpa using List.find?_eq_none.1 hfind
    cases haction : r.action.position? with
    | none =>
      refine (hrule _).trans (exists_congr fun rule ↦ ?_)
      exact ⟨fun h ↦ ⟨hoptional, nofun, h⟩, fun h ↦ h.2.2⟩
    | some position =>
      dsimp only
      rw [Check.throw_bind, Check.guard_eq_ok_iff]
      refine (and_congr_right fun _ ↦ hrule _).trans ?_
      constructor
      · rintro ⟨hlt, rule, h⟩
        refine ⟨rule, hoptional, fun j hj ↦ ?_, h⟩
        obtain rfl := Option.some.inj hj
        exact Nat.not_le.1 hlt
      · rintro ⟨rule, -, hlt, h⟩
        exact ⟨Nat.not_le.2 (hlt position rfl), rule, h⟩

variable {r : RuleEntry} {order : WalkOrder} {b : BuiltRule}

theorem length_nodes {nodes : List Pattern} (h : r.nodes.map Pattern.parse? = nodes.map some) :
    nodes.length = r.nodes.length := by
  simpa using (congrArg List.length h).symm

/-- Names of kinds name constraints. -/
theorem exists_nodes_iff :
    (∃ nodes : List Pattern, r.nodes.map Pattern.parse? = nodes.map some) ↔
      ∀ text ∈ r.nodes, ∃ pattern, Pattern.parse? text = some pattern := by
  simp only [← mapM_resolvePattern_iff, Check.exists_mapM_eq_ok_iff, resolvePattern_eq_ok_iff]

/-- **A rule can be built exactly if it makes sense.** -/
theorem exists_buildRule_iff : (∃ b, Document.buildRule order r = .ok b) ↔ r.Consistent := by
  simp only [buildRule_eq_ok_iff]
  constructor
  · rintro ⟨_, nodes, rule, hnodes, hoptional, haction, hrule, rfl⟩
    obtain ⟨hpos, hrequired, hforward, hnodup, hedge⟩ :=
      wellFormed_iff.1 (Rule.exists_ofParts_iff.1 ⟨rule, hrule⟩)
    rw [length_nodes hnodes] at *
    exact ⟨exists_nodes_iff.1 ⟨nodes, hnodes⟩, hpos, hoptional, hrequired, haction, hforward,
      hnodup, hedge⟩
  · intro h
    obtain ⟨nodes, hnodes⟩ := exists_nodes_iff.2 h.patterns
    have hlength := length_nodes hnodes
    have hparts : Rule.WellFormed nodes r.edgePairs (r.requiredFlags nodes.length) :=
      wellFormed_iff.2 ⟨hlength ▸ h.nodes_pos, h.anchor_required, hlength ▸ h.forward, h.nodup,
        hlength ▸ h.exists_edge⟩
    obtain ⟨rule, hrule⟩ := Rule.exists_ofParts_iff.2 hparts
    exact ⟨_, nodes, rule, hnodes, hlength ▸ h.optional, hlength ▸ h.action, hrule, rfl⟩

theorem describes_of_buildRule (h : Document.buildRule order r = .ok b) :
    r.Describes order b := by
  obtain ⟨nodes, rule, hnodes, -, -, hrule, rfl⟩ := buildRule_eq_ok_iff.1 h
  obtain ⟨hname, rfl, hedges, hrequired⟩ := Rule.ofParts_eq_ok_iff.1 hrule
  refine ⟨hname, hnodes, hedges, fun j hj ↦ ?_, rfl, rfl⟩
  rw [← requiredFlags_iff (length_nodes hnodes ▸ hj), Rule.isRequired, hrequired,
    List.getD_eq_getElem?_getD]
  cases (r.requiredFlags rule.nodes.length)[j]? <;> simp

end RuleEntry

end Dataflow
