import Dataflow.Proofs.RuleEntries
import Dataflow.Proofs.Wiring

/-!
# Which documents are accepted

`Document.Consistent` says which documents are accepted, and `Document.Describes` what is built of
them. Neither speaks of the steps by which a document is built.
-/

namespace Dataflow

namespace Document

variable {d : Document}

/-- **Documents that make sense.** No name is used twice, the edges fit together, and every rule
makes sense. -/
structure Consistent (d : Document) : Prop where
  names_nodup : d.names.Nodup
  fits : d.Fits d.edges
  rules : ∀ r ∈ d.rules, r.Consistent

/-- **What is built of a document.** Operator number `i` has the key number `i`, its own name and
kind, and its arities; there are no others; neighbours stand in the order of the edges. -/
structure Describes (d : Document) (base : Config) (b : BuiltDocument) : Prop where
  operator : ∀ i o, d.operators[i]? = some o →
    b.plan.operator? (key i) = some ⟨key i, o.name, o.kind, o.multiInput, o.multiOutput⟩
  only : ∀ k, b.plan.contains k → ∃ i < d.operators.length, k = key i
  successors : ∀ i o, d.operators[i]? = some o →
    b.plan.successors (key i) = (d.edges.filter (·.source = o.name)).map (d.keyOf ·.target)
  predecessors : ∀ i o, d.operators[i]? = some o →
    b.plan.predecessors (key i) = (d.edges.filter (·.target = o.name)).map (d.keyOf ·.source)
  rules : List.Forall₂ (fun r built ↦ r.Describes (d.walker?.getD default) built) d.rules b.rules
  config : b.config = d.settings?.elim base (·.apply base)
  walker : b.walker = d.walker?.getD default

/-! ### Documents -/

theorem build_eq_ok_iff (hlt : d.operators.length < UInt64.size) {base : Config}
    {b : BuiltDocument} :
    d.build base = .ok b ↔ d.names.Nodup ∧ d.Fits d.edges ∧
      ∃ rules, d.rules.mapM (buildRule (d.walker?.getD default)) = .ok rules ∧
        b = ⟨d.wire d.edges d.populated, rules, d.settings?.elim base (·.apply base),
          d.walker?.getD default⟩ := by
  have hstart : d.operators = [] ++ d.operators := rfl
  have hoperators (names : NameTable) (p : Plan) :
      addOperators d.operators (.ofScope "doc") [] ∅ = .ok (names, p) ↔
        d.names.Nodup ∧ names = d.table d.operators ∧ p = d.populated :=
    addOperators_eq_ok_iff hlt hstart .nil
  rw [build]
  simp only [Check.bind_eq_ok_iff, Prod.exists, hoperators, Check.pure_eq_ok_iff]
  constructor
  · rintro ⟨_, _, ⟨hnames, rfl, rfl⟩, _, hedges, rules, hrules, rfl⟩
    obtain ⟨hfits, rfl⟩ := (addEdges_eq_ok_iff hlt hnames (fits_nil d)).1 hedges
    refine ⟨hnames, hfits, rules, hrules, ?_⟩
    cases d.settings? <;> rfl
  · rintro ⟨hnames, hfits, rules, hrules, rfl⟩
    refine ⟨_, _, ⟨hnames, rfl, rfl⟩, _,
      (addEdges_eq_ok_iff hlt hnames (fits_nil d)).2 ⟨hfits, rfl⟩, rules, hrules, ?_⟩
    cases d.settings? <;> rfl

/-- **Documents are accepted if they make sense.** -/
theorem exists_build_iff (hlt : d.operators.length < UInt64.size) {base : Config} :
    (∃ b, d.build base = .ok b) ↔ d.Consistent := by
  have hrules : (∃ rules, d.rules.mapM (buildRule (d.walker?.getD default)) = .ok rules) ↔
      ∀ r ∈ d.rules, r.Consistent := by
    simp only [Check.exists_mapM_eq_ok_iff, RuleEntry.exists_buildRule_iff]
  constructor
  · rintro ⟨b, h⟩
    obtain ⟨hnames, hfits, rules, hmapM, -⟩ := (build_eq_ok_iff hlt).1 h
    exact ⟨hnames, hfits, hrules.1 ⟨rules, hmapM⟩⟩
  · intro h
    obtain ⟨rules, hmapM⟩ := hrules.2 h.rules
    exact ⟨_, (build_eq_ok_iff hlt).2 ⟨h.names_nodup, h.fits, rules, hmapM, rfl⟩⟩

/-- **What is built is what the document says.** -/
theorem describes_of_build (hlt : d.operators.length < UInt64.size) {base : Config}
    {b : BuiltDocument} (h : d.build base = .ok b) : d.Describes base b := by
  obtain ⟨hnames, hfits, rules, hrules, rfl⟩ := (build_eq_ok_iff hlt).1 h
  have hneighbours : ∀ i o, d.operators[i]? = some o → _ := fun i o ho ↦
    keyOf_name hnames ho ▸ neighbours_wired hlt hfits.declared (mem_names_iff.2
      ⟨o, List.mem_of_getElem? ho, rfl⟩)
  refine ⟨fun i o ho ↦ ?_, fun k hk ↦ ?_, fun i o ho ↦ (hneighbours i o ho).1,
    fun i o ho ↦ (hneighbours i o ho).2, ?_, rfl, rfl⟩
  · rw [← keyOf_name hnames ho]
    exact operator?_wired hlt hnames d.edges (List.mem_of_getElem? ho)
  · obtain ⟨op, hop⟩ := Plan.contains_iff.1 hk
    rw [operator?_wire] at hop
    obtain ⟨o, ho, rfl⟩ | hempty := contains_populate.1 (Plan.contains_iff.2 ⟨op, hop⟩)
    · obtain ⟨i, hi, hget⟩ := List.getElem_of_mem ho
      exact ⟨i, hi, keyOf_name hnames (hget ▸ List.getElem?_eq_getElem hi)⟩
    · cases hempty
  · exact (Check.mapM_eq_ok_iff.1 hrules).imp fun _ _ ↦ RuleEntry.describes_of_buildRule

/-- **A document is accepted exactly if it makes sense, and what is built is what it says.** Whether
it is accepted does not depend on the order of its edges. -/
theorem build_accepts_consistent (d : Document) (base : Config)
    (hlt : d.operators.length < UInt64.size) :
    ((∃ b, d.build base = .ok b) ↔ d.Consistent) ∧
      (∀ b, d.build base = .ok b → d.Describes base b) ∧
      ∀ edges : List EdgeEntry, edges.Perm d.edges →
        ((∃ b, ({ d with edges } : Document).build base = .ok b) ↔ ∃ b, d.build base = .ok b) := by
  refine ⟨exists_build_iff hlt, fun b ↦ describes_of_build hlt, fun edges hperm ↦ ?_⟩
  rw [exists_build_iff hlt, exists_build_iff (d := { d with edges }) hlt]
  have hfits : ({ d with edges } : Document).Fits edges ↔ d.Fits d.edges :=
    ⟨fun h ↦ (h.perm hperm).of_operators rfl, fun h ↦ (h.perm hperm.symm).of_operators rfl⟩
  exact ⟨fun h ↦ ⟨h.names_nodup, hfits.1 h.fits, h.rules⟩,
    fun h ↦ ⟨h.names_nodup, hfits.2 h.fits, h.rules⟩⟩

/-- A split between a source and two sinks, and a rule for a split with one or two of them. -/
def junction : Document where
  settings? := none
  walker? := none
  operators := [⟨"read", .source, none, none⟩, ⟨"part", .split, none, none⟩,
    ⟨"west", .sink, none, none⟩, ⟨"east", .sink, none, none⟩]
  edges := [⟨"part", "east"⟩, ⟨"read", "part"⟩, ⟨"part", "west"⟩]
  rules := [⟨"fan", ["split", "sink", "Sink"], [(0, 1), (0, 2)], [2], .trimBelow 1, none⟩]

/-- The same with one more edge from the source, which may have only one. -/
def crowded : Document :=
  { junction with edges := ⟨"read", "west"⟩ :: junction.edges }

/-- The junction is accepted, with its edges in whatever order, and the split feeds the sinks in the
order of its edges. It is not accepted if the source feeds a sink as well. -/
theorem build_accepts_consistent_junction :
    junction.operators.length < UInt64.size ∧ junction.Consistent ∧
      (∃ b, junction.build default = .ok b ∧ b.plan.successors (key 1) = [key 3, key 2]) ∧
      (∃ b, ({ junction with edges := junction.edges.reverse } : Document).build default = .ok b) ∧
      ¬∃ b, crowded.build default = .ok b := by
  have hlt : junction.operators.length < UInt64.size := by decide
  obtain ⟨haccepts, hdescribes, hperm⟩ := build_accepts_consistent junction default hlt
  have hok : (junction.build default).isOk := by decide +kernel
  obtain ⟨b, hb⟩ : ∃ b, junction.build default = .ok b := by
    cases h : junction.build default with
    | error e =>
      rw [h] at hok
      cases hok
    | ok b => exact ⟨b, rfl⟩
  refine ⟨hlt, haccepts.1 ⟨b, hb⟩, ⟨b, hb, (hdescribes b hb).successors 1 _ rfl⟩,
    (hperm _ (List.reverse_perm _)).2 ⟨b, hb⟩, fun hcrowded ↦ ?_⟩
  have hfits := ((build_accepts_consistent crowded default hlt).1.1 hcrowded).fits
  exact absurd (hfits.outputs ⟨"read", .source, none, none⟩ (by decide) rfl) (by decide)

end Document

end Dataflow
