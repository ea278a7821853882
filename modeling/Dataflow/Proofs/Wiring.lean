import Dataflow.Document.Build
import Dataflow.Proofs.EditViews
import Dataflow.Proofs.Validation
import Mathlib.Data.List.Induction

/-!
# Operators and edges of a document

A document is built step by step: each operator and each edge is looked at in the plan that those
before it have made. Here the two loops are followed. What comes of them can be said at once.

The loop over the operators succeeds exactly if no name is used twice, and leaves the plan
`Document.populated` (`addOperators_eq_ok_iff`). The loop over the edges succeeds exactly if they
fit together, `Document.Fits`, and adds them all (`addEdges_eq_ok_iff`). This condition does not
depend on the order of the edges, and of edges that fit together any first part does so, too; this
is why it can be followed along the loop.

As long as there are fewer than 2⁶⁴ operators, different names have different keys (`keyOf_inj`), so
the plan tells operators and edges apart if the document does.
-/

namespace Dataflow

/-- Edges that are added one after the other come after those that were there. -/
theorem Adjacency.neighbours_foldl_update {ι : Type} (source target : ι → Key) (l : List ι)
    (a : Adjacency) (k : Key) :
    neighbours (l.foldl (fun a e ↦ update a (source e) (· ++ [target e])) a) k =
      neighbours a k ++ (l.filter (source · = k)).map target := by
  induction l generalizing a with
  | nil => exact (List.append_nil _).symm
  | cons e l ih =>
    rw [List.foldl_cons, ih, neighbours_update, List.filter_cons]
    by_cases h : source e = k
    · simp [h]
    · simp [h, Ne.symm h]

namespace OperatorEntry

variable (o : OperatorEntry)

/-- Whether several edges may enter: as the entry says or, if it does not, as usual. -/
def multiInput : Bool :=
  o.multiInput?.getD o.kind.multiInput

/-- Whether several edges may leave: as the entry says or, if it does not, as usual. -/
def multiOutput : Bool :=
  o.multiOutput?.getD o.kind.multiOutput

end OperatorEntry

namespace Document

variable {d : Document}

/-! ### Edges that fit together -/

/-- The names of the operators, in their order. -/
def names (d : Document) : List String :=
  d.operators.map (·.name)

/-- **Edges that fit together.** They connect different operators of the document; none is listed
twice; and an operator that may not have several edges at a side has at most one there. -/
structure Fits (d : Document) (edges : List EdgeEntry) : Prop where
  declared : ∀ e ∈ edges, e.source ∈ d.names ∧ e.target ∈ d.names
  apart : ∀ e ∈ edges, e.source ≠ e.target
  nodup : edges.Nodup
  outputs : ∀ o ∈ d.operators, o.multiOutput = false → edges.countP (·.source = o.name) ≤ 1
  inputs : ∀ o ∈ d.operators, o.multiInput = false → edges.countP (·.target = o.name) ≤ 1

theorem fits_nil (d : Document) : d.Fits [] where
  declared := nofun
  apart := nofun
  nodup := .nil
  outputs _ _ _ := Nat.zero_le _
  inputs _ _ _ := Nat.zero_le _

theorem Fits.perm {edges edges' : List EdgeEntry} (h : d.Fits edges) (hperm : edges.Perm edges') :
    d.Fits edges' where
  declared e he := h.declared e (hperm.mem_iff.2 he)
  apart e he := h.apart e (hperm.mem_iff.2 he)
  nodup := hperm.nodup_iff.1 h.nodup
  outputs o ho hone := hperm.countP_eq _ ▸ h.outputs o ho hone
  inputs o ho hone := hperm.countP_eq _ ▸ h.inputs o ho hone

/-- Whether edges fit together is a matter of the operators alone. -/
theorem Fits.of_operators {d' : Document} {edges : List EdgeEntry} (h : d.Fits edges)
    (heq : d.operators = d'.operators) : d'.Fits edges where
  declared := by simpa only [names, heq] using h.declared
  apart := h.apart
  nodup := h.nodup
  outputs := heq ▸ h.outputs
  inputs := heq ▸ h.inputs

/-- What does not fit will not fit when more comes. -/
theorem Fits.of_append {edges rest : List EdgeEntry} (h : d.Fits (edges ++ rest)) :
    d.Fits edges where
  declared e he := h.declared e (List.mem_append_left _ he)
  apart e he := h.apart e (List.mem_append_left _ he)
  nodup := (List.nodup_append.1 h.nodup).1
  outputs o ho hone :=
    Nat.le_trans (List.sublist_append_left ..).countP_le (h.outputs o ho hone)
  inputs o ho hone :=
    Nat.le_trans (List.sublist_append_left ..).countP_le (h.inputs o ho hone)

/-! ### Keys -/

/-- The key of operator number `i`. -/
def key (i : Nat) : Key :=
  ⟨"doc", UInt64.ofNat i⟩

/-- The key of the operator with that name. -/
def keyOf (d : Document) (name : String) : Key :=
  key (d.names.idxOf name)

/-- The plan of the operators in `l`, without edges. -/
def populate (d : Document) (l : List OperatorEntry) (p : Plan) : Plan :=
  l.foldl (fun p o ↦ p.put (o.operator (d.keyOf o.name))) p

/-- The names in `l` and their keys, as they are looked up. -/
def table (d : Document) (l : List OperatorEntry) : NameTable :=
  (l.map fun o ↦ (o.name, d.keyOf o.name)).reverse

/-- The plan with the edges added. -/
def wire (d : Document) (edges : List EdgeEntry) (p : Plan) : Plan :=
  edges.foldl (fun p e ↦ p.link (d.keyOf e.source) (d.keyOf e.target)) p

/-- The plan of all operators, without edges. -/
def populated (d : Document) : Plan :=
  d.populate d.operators ∅

theorem mem_names_iff {name : String} : name ∈ d.names ↔ ∃ o ∈ d.operators, o.name = name :=
  List.mem_map

theorem table_concat (l : List OperatorEntry) (o : OperatorEntry) :
    d.table (l ++ [o]) = (o.name, d.keyOf o.name) :: d.table l := by
  rw [table, List.map_append, List.reverse_append]
  rfl

theorem populate_concat (l : List OperatorEntry) (o : OperatorEntry) (p : Plan) :
    d.populate (l ++ [o]) p = (d.populate l p).put (o.operator (d.keyOf o.name)) :=
  List.foldl_concat ..

theorem wire_concat (edges : List EdgeEntry) (e : EdgeEntry) (p : Plan) :
    d.wire (edges ++ [e]) p = (d.wire edges p).link (d.keyOf e.source) (d.keyOf e.target) :=
  List.foldl_concat ..

theorem lookup_table (l : List OperatorEntry) (name : String) :
    (d.table l).lookup name = if name ∈ l.map (·.name) then some (d.keyOf name) else none := by
  induction l using List.reverseRecOn with
  | nil => rfl
  | append_singleton l o ih =>
    rw [table_concat, List.lookup_cons, ih]
    by_cases h : name = o.name
    · simp [h]
    · simp [h, beq_eq_false_iff_ne.2 h]

theorem keyOf_name (hnames : d.names.Nodup) {i : Nat} {o : OperatorEntry}
    (h : d.operators[i]? = some o) : d.keyOf o.name = key i := by
  have hi : d.names[i]? = some o.name := by rw [names, List.getElem?_map, h, Option.map_some]
  obtain ⟨hlt, hget⟩ := List.getElem?_eq_some_iff.1 hi
  rw [keyOf, ← hget, hnames.idxOf_getElem i hlt]

section Keys

variable (hlt : d.operators.length < UInt64.size)

include hlt

/-- **Different names have different keys.** -/
theorem keyOf_inj {a b : String} (ha : a ∈ d.names) (hb : b ∈ d.names) :
    d.keyOf a = d.keyOf b ↔ a = b := by
  have hindex : ∀ name ∈ d.names, d.names.idxOf name < UInt64.size := fun name hname ↦ by
    have := List.idxOf_lt_length_of_mem hname
    rw [names, List.length_map] at this
    exact Nat.lt_trans this hlt
  rw [← List.idxOf_inj ha]
  refine ⟨fun h ↦ ?_, congrArg key⟩
  have hid : (UInt64.ofNat (d.names.idxOf a)).toNat = (UInt64.ofNat (d.names.idxOf b)).toNat :=
    congrArg (·.id.toNat) h
  rwa [UInt64.toNat_ofNat_of_lt' (hindex a ha), UInt64.toNat_ofNat_of_lt' (hindex b hb)] at hid

end Keys

/-! ### Operators -/

theorem contains_populate {l : List OperatorEntry} {p : Plan} {k : Key} :
    (d.populate l p).contains k ↔ (∃ o ∈ l, k = d.keyOf o.name) ∨ p.contains k := by
  induction l generalizing p with
  | nil => simp [populate]
  | cons o l ih =>
    show (d.populate l (p.put _)).contains k ↔ _
    rw [ih, Plan.contains_put, List.exists_mem_cons_iff, or_left_comm, or_assoc]
    rfl

theorem neighbours_populate {l : List OperatorEntry} {p : Plan} (k : Key) :
    (d.populate l p).successors k = p.successors k ∧
      (d.populate l p).predecessors k = p.predecessors k := by
  induction l generalizing p with
  | nil => exact ⟨rfl, rfl⟩
  | cons o l ih => exact ih (p := p.put _)

theorem operator?_populate_of_ne {l : List OperatorEntry} {p : Plan} {k : Key}
    (h : ∀ o ∈ l, k ≠ d.keyOf o.name) : (d.populate l p).operator? k = p.operator? k := by
  induction l generalizing p with
  | nil => rfl
  | cons o l ih =>
    obtain ⟨ho, hl⟩ := List.forall_mem_cons.1 h
    show (d.populate l (p.put _)).operator? k = _
    rw [ih hl, Plan.operator?_put]
    exact if_neg ho

section Operators

variable (hlt : d.operators.length < UInt64.size)

include hlt

/-- The key of a name that has not been used is free. -/
theorem not_contains_populate {l : List OperatorEntry} (hl : l ⊆ d.operators) {name : String}
    (hname : name ∈ d.names) (hfresh : name ∉ l.map (·.name)) :
    (d.populate l ∅).contains (d.keyOf name) = false := by
  rw [← Bool.not_eq_true, contains_populate]
  rintro (⟨o, ho, heq⟩ | hempty)
  · have hsame : name = o.name := (keyOf_inj hlt hname (List.mem_map_of_mem (hl ho))).1 heq
    exact hfresh (hsame ▸ List.mem_map_of_mem ho)
  · cases hempty

/-- **The loop over the operators**, by induction on those that are left: a name that has been used
ends it, and a new name has a new key. -/
theorem addOperators_eq_ok_iff {done rest : List OperatorEntry} (hd : d.operators = done ++ rest)
    (hdone : (done.map (·.name)).Nodup) {names : NameTable} {p : Plan} :
    addOperators rest ⟨"doc", UInt64.ofNat done.length⟩ (d.table done) (d.populate done ∅) =
        .ok (names, p) ↔
      d.names.Nodup ∧ names = d.table d.operators ∧ p = d.populated := by
  induction rest generalizing done with
  | nil =>
    rw [List.append_nil] at hd
    subst hd
    have hnodup : d.names.Nodup := hdone
    rw [addOperators, Except.ok.injEq, Prod.mk.injEq, and_iff_right hnodup, eq_comm,
      eq_comm (a := p)]
    rfl
  | cons o rest ih =>
    have hnames : d.names = done.map (·.name) ++ o.name :: rest.map (·.name) := by
      rw [Document.names, hd, List.map_append, List.map_cons]
    rw [addOperators, lookup_table]
    by_cases hused : o.name ∈ done.map (·.name)
    · rw [if_pos hused]
      refine iff_of_false nofun fun ⟨hnodup, _⟩ ↦ ?_
      rw [hnames] at hnodup
      exact (List.nodup_append.1 hnodup).2.2 _ hused _ (List.mem_cons_self ..) rfl
    · -- The supply is at the number of the operator, which is where its name occurs first.
      have hkey : d.keyOf o.name = ⟨"doc", UInt64.ofNat done.length⟩ := by
        rw [keyOf, hnames, List.idxOf_append_of_notMem hused, List.idxOf_cons_self,
          List.length_map]
        rfl
      have hfree : (d.populate done ∅).contains (d.keyOf o.name) = false :=
        not_contains_populate hlt (hd ▸ List.subset_append_left ..)
          (hnames ▸ List.mem_append_right _ (List.mem_cons_self ..)) hused
      have hsplit : d.operators = (done ++ [o]) ++ rest := by
        rw [hd, List.append_assoc]
        rfl
      have hfresh : ((done ++ [o]).map (·.name)).Nodup := by
        rw [List.map_append, List.map_singleton, ← List.concat_eq_append]
        exact hdone.concat hused
      have hsupply : UInt64.ofNat (done ++ [o]).length = UInt64.ofNat done.length + 1 := by
        rw [List.length_append, List.length_singleton, UInt64.ofNat_add]
        rfl
      have hnext := ih hsplit hfresh
      rw [hsupply, table_concat, populate_concat] at hnext
      rw [if_neg hused, ← hnext]
      dsimp only [KeySupply.take, KeySupply.peek]
      rw [← hkey, Plan.add_of_free hfree]
      rfl

theorem operator?_populate {l : List OperatorEntry} {p : Plan} (hl : l ⊆ d.operators)
    (hnodup : (l.map (·.name)).Nodup) {o : OperatorEntry} (ho : o ∈ l) :
    (d.populate l p).operator? (d.keyOf o.name) = some (o.operator (d.keyOf o.name)) := by
  have hnames : ∀ c ∈ l, c.name ∈ d.names := fun c hc ↦ List.mem_map_of_mem (hl hc)
  induction l generalizing p with
  | nil => cases ho
  | cons c l ih =>
    obtain ⟨hc, hnodup⟩ := List.nodup_cons.1 hnodup
    obtain ⟨hcname, hlnames⟩ := List.forall_mem_cons.1 hnames
    show (d.populate l (p.put _)).operator? _ = _
    rcases List.mem_cons.1 ho with rfl | ho
    · -- Whatever comes later has another name, and hence another key.
      rw [operator?_populate_of_ne, Plan.operator?_put]
      · exact if_pos rfl
      · intro b hb heq
        have hname := (keyOf_inj hlt hcname (hlnames b hb)).1 heq
        exact hc (List.mem_map.2 ⟨b, hb, hname.symm⟩)
    · exact ih (List.subset_of_cons_subset hl) hnodup ho hlnames

theorem operator?_populated (hnodup : d.names.Nodup) {o : OperatorEntry}
    (ho : o ∈ d.operators) :
    d.populated.operator? (d.keyOf o.name) = some (o.operator (d.keyOf o.name)) :=
  operator?_populate hlt (List.Subset.refl _) hnodup ho

end Operators

/-! ### Edges -/

theorem operator?_wire {edges : List EdgeEntry} {p : Plan} (k : Key) :
    (d.wire edges p).operator? k = p.operator? k := by
  induction edges generalizing p with
  | nil => rfl
  | cons e edges ih => exact ih (p := p.link _ _)

theorem succs_wire {edges : List EdgeEntry} {p : Plan} :
    (d.wire edges p).succs = edges.foldl
      (fun a e ↦ Adjacency.update a (d.keyOf e.source) (· ++ [d.keyOf e.target])) p.succs := by
  induction edges generalizing p with
  | nil => rfl
  | cons e edges ih => exact ih (p := p.link _ _)

theorem preds_wire {edges : List EdgeEntry} {p : Plan} :
    (d.wire edges p).preds = edges.foldl
      (fun a e ↦ Adjacency.update a (d.keyOf e.target) (· ++ [d.keyOf e.source])) p.preds := by
  induction edges generalizing p with
  | nil => rfl
  | cons e edges ih => exact ih (p := p.link _ _)

section Wire

variable (hlt : d.operators.length < UInt64.size) {edges : List EdgeEntry}

include hlt

/-- The edges at an operator are those with its name. -/
theorem filter_keyOf {side : EdgeEntry → String} (hside : ∀ e ∈ edges, side e ∈ d.names)
    {name : String} (hname : name ∈ d.names) :
    edges.filter (fun e ↦ d.keyOf (side e) = d.keyOf name) = edges.filter (side · = name) :=
  List.filter_congr fun e he ↦ decide_eq_decide.2 (keyOf_inj hlt (hside e he) hname)

theorem neighbours_wired (hdeclared : ∀ e ∈ edges, e.source ∈ d.names ∧ e.target ∈ d.names)
    {name : String} (hname : name ∈ d.names) :
    (d.wire edges d.populated).successors (d.keyOf name) =
        (edges.filter (·.source = name)).map (d.keyOf ·.target) ∧
      (d.wire edges d.populated).predecessors (d.keyOf name) =
        (edges.filter (·.target = name)).map (d.keyOf ·.source) := by
  obtain ⟨hsuccs, hpreds⟩ := neighbours_populate (d := d) (l := d.operators) (p := ∅) (d.keyOf name)
  have hsuccs : Adjacency.neighbours d.populated.succs (d.keyOf name) = [] := hsuccs
  have hpreds : Adjacency.neighbours d.populated.preds (d.keyOf name) = [] := hpreds
  rw [Plan.successors, succs_wire, Adjacency.neighbours_foldl_update, hsuccs,
    filter_keyOf hlt (fun e he ↦ (hdeclared e he).1) hname, Plan.predecessors, preds_wire,
    Adjacency.neighbours_foldl_update, hpreds,
    filter_keyOf hlt (fun e he ↦ (hdeclared e he).2) hname]
  exact ⟨rfl, rfl⟩

/-- As many edges leave and enter an operator as the document says. -/
theorem degrees_wired (hdeclared : ∀ e ∈ edges, e.source ∈ d.names ∧ e.target ∈ d.names)
    {name : String} (hname : name ∈ d.names) :
    (d.wire edges d.populated).outDegree (d.keyOf name) = edges.countP (·.source = name) ∧
      (d.wire edges d.populated).inDegree (d.keyOf name) = edges.countP (·.target = name) := by
  obtain ⟨hsuccs, hpreds⟩ := neighbours_wired hlt hdeclared hname
  rw [Plan.outDegree, hsuccs, List.length_map, ← List.countP_eq_length_filter, Plan.inDegree,
    hpreds, List.length_map, ← List.countP_eq_length_filter]
  exact ⟨rfl, rfl⟩

theorem mem_successors_wired_iff
    (hdeclared : ∀ e ∈ edges, e.source ∈ d.names ∧ e.target ∈ d.names) {e : EdgeEntry}
    (hsource : e.source ∈ d.names) (htarget : e.target ∈ d.names) :
    d.keyOf e.target ∈ (d.wire edges d.populated).successors (d.keyOf e.source) ↔ e ∈ edges := by
  rw [(neighbours_wired hlt hdeclared hsource).1]
  simp only [List.mem_map, List.mem_filter, decide_eq_true_iff]
  constructor
  · rintro ⟨⟨source, target⟩, ⟨hx, rfl : source = e.source⟩, heq⟩
    obtain rfl : target = e.target := (keyOf_inj hlt (hdeclared _ hx).2 htarget).1 heq
    exact hx
  · exact fun he ↦ ⟨e, ⟨he, rfl⟩, rfl⟩

end Wire

/-- One more edge is too many for an operator exactly if it may not have several and has one. -/
theorem atMost_concat_iff {side : EdgeEntry → String} {many : OperatorEntry → Bool}
    (hnames : d.names.Nodup) {edges : List EdgeEntry} {e : EdgeEntry}
    (hedges : ∀ o ∈ d.operators, many o = false → edges.countP (side · = o.name) ≤ 1)
    {o : OperatorEntry} (ho : o ∈ d.operators) (he : side e = o.name) :
    (∀ o ∈ d.operators, many o = false → (edges ++ [e]).countP (side · = o.name) ≤ 1) ↔
      (0 < edges.countP (side · = o.name) → many o = true) := by
  have hcount : ∀ c : OperatorEntry, (edges ++ [e]).countP (side · = c.name) =
      edges.countP (side · = c.name) + if side e = c.name then 1 else 0 := fun c ↦ by
    rw [List.countP_append, List.countP_singleton]
    simp only [decide_eq_true_iff]
  constructor
  · intro h hpos
    by_contra hone
    have hle := h o ho (Bool.eq_false_iff.2 hone)
    rw [hcount, if_pos he] at hle
    omega
  · intro h c hc hone
    rw [hcount]
    split
    next hsame =>
      -- Only one operator has the name.
      obtain rfl : o = c := List.inj_on_of_nodup_map hnames ho hc (he.symm.trans hsame)
      have hzero : ¬0 < edges.countP (side · = o.name) := fun hpos ↦ by
        rw [h hpos] at hone
        cases hone
      omega
    · exact hedges c hc hone

theorem Fits.concat_iff (hnames : d.names.Nodup) {edges : List EdgeEntry} {e : EdgeEntry}
    (h : d.Fits edges) {o c : OperatorEntry} (ho : o ∈ d.operators) (hc : c ∈ d.operators)
    (hsource : e.source = o.name) (htarget : e.target = c.name) :
    d.Fits (edges ++ [e]) ↔ e.source ≠ e.target ∧ e ∉ edges ∧
      (0 < edges.countP (·.source = o.name) → o.multiOutput = true) ∧
      (0 < edges.countP (·.target = c.name) → c.multiInput = true) := by
  have hlast : e ∈ edges ++ [e] := List.mem_append_right _ (List.mem_singleton_self e)
  constructor
  · intro h'
    exact ⟨h'.apart e hlast, fun hmem ↦ List.disjoint_of_nodup_append h'.nodup hmem
      (List.mem_singleton_self e), (atMost_concat_iff hnames h.outputs ho hsource).1 h'.outputs,
      (atMost_concat_iff hnames h.inputs hc htarget).1 h'.inputs⟩
  · rintro ⟨hapart, hfresh, houtputs, hinputs⟩
    have hsplit : ∀ x ∈ edges ++ [e], x ∈ edges ∨ x = e := fun x hx ↦ by simpa using hx
    exact {
      declared := fun x hx ↦ (hsplit x hx).elim (h.declared x) fun heq ↦
        heq ▸ ⟨mem_names_iff.2 ⟨o, ho, hsource.symm⟩, mem_names_iff.2 ⟨c, hc, htarget.symm⟩⟩
      apart := fun x hx ↦ (hsplit x hx).elim (h.apart x) fun heq ↦ heq ▸ hapart
      nodup := List.concat_eq_append ▸ h.nodup.concat hfresh
      outputs := (atMost_concat_iff hnames h.outputs ho hsource).2 houtputs
      inputs := (atMost_concat_iff hnames h.inputs hc htarget).2 hinputs }

theorem addEdges_cons_eq_ok_iff {names : NameTable} {e : EdgeEntry} {rest : List EdgeEntry}
    {p q : Plan} :
    addEdges names (e :: rest) p = .ok q ↔
      ∃ source, resolveName names e.source = .ok source ∧
        ∃ target, resolveName names e.target = .ok target ∧
          p.checkConnect source target = .ok () ∧
          addEdges names rest (p.link source target) = .ok q := by
  rw [addEdges]
  simp only [Check.bind_eq_ok_iff]
  refine exists_congr fun source ↦ and_congr_right fun _ ↦
    exists_congr fun target ↦ and_congr_right fun _ ↦ ?_
  cases hverdict : p.checkConnect source target <;> simp [Plan.connect, Plan.commit, hverdict]

theorem resolveName_eq_ok_iff {name : String} {k : Key} :
    resolveName (d.table d.operators) name = .ok k ↔ name ∈ d.names ∧ k = d.keyOf name := by
  rw [resolveName, lookup_table, ← names]
  by_cases h : name ∈ d.names
  · rw [if_pos h, and_iff_right h, Except.ok.injEq, eq_comm]
  · rw [if_neg h]
    exact iff_of_false nofun fun hk ↦ h hk.1

section Edges

variable (hlt : d.operators.length < UInt64.size) (hnames : d.names.Nodup)

include hlt hnames

theorem operator?_wired (edges : List EdgeEntry) {o : OperatorEntry} (ho : o ∈ d.operators) :
    (d.wire edges d.populated).operator? (d.keyOf o.name) =
      some (o.operator (d.keyOf o.name)) := by
  rw [operator?_wire, operator?_populated hlt hnames ho]

/-- **One edge more.** After edges that fit together, an edge is accepted exactly if it fits to
them. -/
theorem checkConnect_wired_iff {edges : List EdgeEntry} {e : EdgeEntry} (h : d.Fits edges)
    (hsource : e.source ∈ d.names) (htarget : e.target ∈ d.names) :
    (d.wire edges d.populated).checkConnect (d.keyOf e.source) (d.keyOf e.target) = .ok () ↔
      d.Fits (edges ++ [e]) := by
  obtain ⟨o, ho, hoe⟩ := mem_names_iff.1 hsource
  obtain ⟨c, hc, hce⟩ := mem_names_iff.1 htarget
  have hs := operator?_wired hlt hnames edges ho
  have ht := operator?_wired hlt hnames edges hc
  rw [hoe] at hs
  rw [hce] at ht
  rw [Plan.checkConnect_eq_ok_iff, h.concat_iff hnames ho hc hoe.symm hce.symm, hs, ht,
    mem_successors_wired_iff hlt h.declared hsource htarget,
    (degrees_wired hlt h.declared hsource).1, (degrees_wired hlt h.declared htarget).2, Ne,
    keyOf_inj hlt hsource htarget, hoe, hce]
  simp only [Option.some.injEq, exists_eq_left']
  rfl

/-- **The loop over the edges**, by induction on those that are left: each is accepted if it fits to
those before it, so all are if they fit together. -/
theorem addEdges_eq_ok_iff {done rest : List EdgeEntry} (hdone : d.Fits done) {q : Plan} :
    addEdges (d.table d.operators) rest (d.wire done d.populated) = .ok q ↔
      d.Fits (done ++ rest) ∧ q = d.wire (done ++ rest) d.populated := by
  induction rest generalizing done with
  | nil => rw [addEdges, List.append_nil, and_iff_right hdone, Except.ok.injEq, eq_comm]
  | cons e rest ih =>
    have happend : done ++ e :: rest = (done ++ [e]) ++ rest := by rw [List.append_assoc]; rfl
    rw [addEdges_cons_eq_ok_iff, happend]
    simp only [resolveName_eq_ok_iff]
    constructor
    · rintro ⟨_, ⟨hsource, rfl⟩, _, ⟨htarget, rfl⟩, hverdict, h⟩
      have hfirst := (checkConnect_wired_iff hlt hnames hdone hsource htarget).1 hverdict
      rw [← wire_concat] at h
      exact (ih hfirst).1 h
    · rintro ⟨hfits, rfl⟩
      have hfirst := hfits.of_append
      obtain ⟨hsource, htarget⟩ :=
        hfirst.declared e (List.mem_append_right _ (List.mem_singleton_self e))
      refine ⟨_, ⟨hsource, rfl⟩, _, ⟨htarget, rfl⟩,
        (checkConnect_wired_iff hlt hnames hdone hsource htarget).2 hfirst, ?_⟩
      rw [← wire_concat]
      exact (ih hfirst).2 ⟨hfits, rfl⟩

end Edges

end Document

end Dataflow
