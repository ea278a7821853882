import Dataflow.Optimizer.Report
import Dataflow.Proofs.Cycles
import Dataflow.Walk.Visit

/-!
# Displayed keys are told apart

A key is displayed as its scope, a dash and its number, and without a dash if the scope is empty. A
scope may itself end in a dash and digits, but what follows the last dash is always the number, for
a number has no dash in it. So the digits at the end of the text, as many as there are, are the
number (`digits_at_end`), what stands before them is nothing or a scope and a dash, and both can be
read off.

Names of operators are displayed as they are, whatever characters they have in them. So the keys in
two texts are told apart if the same stands around them (`Shows`), or if no name has a character in
it that encloses keys (`split_at_first`, `split_at_last`). But a name may imitate a key in brackets
and what follows it, and then two operators can have one line (`lookalikes`).
-/

namespace Dataflow

namespace Key

/-- What stands before the number of a key when it is displayed. -/
def lead (k : Key) : List Char :=
  if k.scope = "" then [] else k.scope.toList ++ ['-']

theorem toList_display (k : Key) : k.display.toList = k.lead ++ Nat.toDigits 10 k.id.toNat := by
  have hnumber : (toString k.id.toNat).toList = Nat.toDigits 10 k.id.toNat := by
    rw [Nat.toString_eq_repr, Nat.repr_eq_ofList_toDigits, String.toList_ofList]
  rw [display, lead]
  split
  · rw [List.nil_append, hnumber]
  · simp

theorem not_isDigit_of_getLast?_lead {k : Key} {c : Char} (h : k.lead.getLast? = some c) :
    ¬c.isDigit := by
  rw [lead] at h
  split at h
  · cases h
  · rw [List.getLast?_concat] at h
    cases h
    decide

/-- The dash tells no scope from a scope. -/
theorem scope_eq_of_lead {a b : Key} (h : a.lead = b.lead) : a.scope = b.scope := by
  rw [lead, lead] at h
  split at h <;> split at h
  next ha hb => rw [ha, hb]
  next => simp at h
  next => simp at h
  next => exact String.toList_inj.1 (List.append_cancel_right h)

/-- Where a text goes on before its digits begin, another one cannot have digits already. -/
theorem eq_nil_of_digits {s m e : List Char} (hd : ∀ c ∈ m ++ e, c.isDigit)
    (ht : ∀ c, (s ++ m).getLast? = some c → ¬c.isDigit) : m = [] := by
  obtain rfl | ⟨m, c, rfl⟩ := m.eq_nil_or_concat
  · rfl
  · exact absurd (hd c (by simp)) (ht c (by simp))

/-- **The number is what the text ends in.** Of two texts that end in digits, with no digit just
before them, one cannot be the other unless the digits are the same. -/
theorem digits_at_end {s t d e : List Char} (hd : ∀ c ∈ d, c.isDigit) (he : ∀ c ∈ e, c.isDigit)
    (hs : ∀ c, s.getLast? = some c → ¬c.isDigit) (ht : ∀ c, t.getLast? = some c → ¬c.isDigit)
    (h : s ++ d = t ++ e) : s = t ∧ d = e := by
  rcases List.append_eq_append_iff.1 h with ⟨m, rfl, rfl⟩ | ⟨m, rfl, rfl⟩
  · obtain rfl := eq_nil_of_digits hd ht
    simp
  · obtain rfl := eq_nil_of_digits he hs
    simp

/-- A text is cut in two at the first occurrence of a character in only one way. -/
theorem split_at_first {c : Char} {s t u v : List Char} (hs : c ∉ s) (ht : c ∉ t)
    (h : s ++ c :: u = t ++ c :: v) : s = t ∧ u = v := by
  rcases List.append_eq_append_iff.1 h with ⟨m, rfl, hm⟩ | ⟨m, rfl, hm⟩
  · cases m with
    | nil => exact ⟨(List.append_nil s).symm, (List.cons.inj hm).2⟩
    | cons d m => exact absurd ((List.cons.inj hm).1 ▸ by simp) ht
  · cases m with
    | nil => exact ⟨List.append_nil t, (List.cons.inj hm).2.symm⟩
    | cons d m => exact absurd ((List.cons.inj hm).1 ▸ by simp) hs

/-- Likewise at the last one. -/
theorem split_at_last {c : Char} {s t u v : List Char} (hu : c ∉ u) (hv : c ∉ v)
    (h : s ++ c :: u = t ++ c :: v) : s = t ∧ u = v := by
  have hreverse : u.reverse ++ c :: s.reverse = v.reverse ++ c :: t.reverse := by
    simpa using congrArg List.reverse h
  obtain ⟨hvu, hst⟩ := split_at_first (mt List.mem_reverse.1 hu) (mt List.mem_reverse.1 hv) hreverse
  exact ⟨List.reverse_inj.1 hst, List.reverse_inj.1 hvu⟩

/-- **Displayed keys can be read back.** -/
theorem eq_of_display {a b : Key} (h : a.display = b.display) : a = b := by
  have hdigit : ∀ k : Key, ∀ c ∈ Nat.toDigits 10 k.id.toNat, c.isDigit :=
    fun _ _ ↦ Nat.isDigit_of_mem_toDigits (by decide) (by decide)
  have hlead : ∀ (k : Key) (c : Char), k.lead.getLast? = some c → ¬c.isDigit :=
    fun _ _ ↦ not_isDigit_of_getLast?_lead
  have htext := congrArg String.toList h
  rw [toList_display, toList_display] at htext
  obtain ⟨hscope, hnumber⟩ := digits_at_end (hdigit a) (hdigit b) (hlead a) (hlead b) htext
  have hid : a.id.toNat = b.id.toNat := by
    rw [← Nat.ofDigitChars_ten_toDigits (n := a.id.toNat), hnumber, Nat.ofDigitChars_ten_toDigits]
  cases a
  cases b
  rw [Key.mk.injEq]
  exact ⟨scope_eq_of_lead hscope, UInt64.toNat_inj.1 hid⟩

/-! ### Texts in which a key is displayed -/

/-- A text in which a key is displayed, with the same around it whatever the key. -/
def Shows (text : Key → String) : Prop :=
  ∃ before after, ∀ k, text k = before ++ k.display ++ after

namespace Shows

variable {text : Key → String}

theorem display : Shows display :=
  ⟨"", "", fun k ↦ by simp⟩

theorem append (h : Shows text) (s : String) : Shows fun k ↦ text k ++ s := by
  obtain ⟨before, after, h⟩ := h
  exact ⟨before, after ++ s, fun k ↦ by simp only [h, String.append_assoc]⟩

theorem prepend (h : Shows text) (s : String) : Shows fun k ↦ s ++ text k := by
  obtain ⟨before, after, h⟩ := h
  exact ⟨s ++ before, after, fun k ↦ by simp only [h, String.append_assoc]⟩

/-- **Different keys make different texts.** -/
theorem injective (h : Shows text) {a b : Key} (hab : text a = text b) : a = b := by
  obtain ⟨before, after, h⟩ := h
  rw [h, h] at hab
  refine eq_of_display (String.toList_inj.1 ?_)
  have htext := congrArg String.toList hab
  simpa using htext

end Shows

theorem shows_notInPlan : Shows fun k ↦ (PlanError.notInPlan k).message :=
  (Shows.display.prepend "Operator ").append " is not in the plan"

theorem shows_duplicateKey : Shows fun k ↦ (PlanError.duplicateKey k).message :=
  (Shows.display.prepend "Operator ").append " is already in the plan"

/-- What follows the key in an arity error. -/
def afterArity (direction : Direction) : String :=
  ") multiple " ++ direction.word ++ ". " ++
    ("This operator does not support multiple " ++ direction.word ++ ".")

theorem arity_message (k : Key) (name : String) (direction : Direction) :
    (PlanError.arity k name direction).message =
      "Attempt to give operator " ++ (name ++ " (" ++ (k.display ++ afterArity direction)) := by
  -- The text as it stands in `PlanError.message`, which is put together from the left.
  have hmessage : (PlanError.arity k name direction).message =
      "Attempt to give operator " ++ name ++ " (" ++ k.display ++ ") multiple " ++ direction.word ++
        ". " ++ ("This operator does not support multiple " ++ direction.word ++ ".") := rfl
  rw [hmessage]
  simp only [afterArity, String.append_assoc]

theorem shows_arity (name : String) (direction : Direction) :
    Shows fun k ↦ (PlanError.arity k name direction).message := by
  simp only [arity_message]
  exact ((Shows.display.append _).prepend _).prepend _

theorem shows_traversal (reason : String) :
    Shows fun k ↦ (PlanError.traversal k reason).message :=
  ((Shows.display.prepend _).append _).append _

theorem shows_lines (number : Nat) (rule before after : String) :
    Shows fun k ↦ RewriteTrace.lines number ⟨rule, k, before, after⟩ := by
  simp only [RewriteTrace.lines]
  exact (((Shows.display.prepend _).append _).append _).append _

/-- Where a name is followed by a blank and a character that it has not in it, what comes after is
the same whenever the texts are. -/
theorem eq_after_name {c : Char} {opening name name' s t : String} (hc : c ≠ ' ')
    (hopening : opening.toList = [' ', c]) (hname : c ∉ name.toList) (hname' : c ∉ name'.toList)
    (h : name ++ opening ++ s = name' ++ opening ++ t) : s = t := by
  have htexts : (name.toList ++ [' ']) ++ c :: s.toList =
      (name'.toList ++ [' ']) ++ c :: t.toList := by
    simpa [hopening] using congrArg String.toList h
  have hrests := split_at_first (by simp [hname, hc]) (by simp [hname', hc]) htexts
  exact String.toList_inj.1 hrests.2

/-- If no name opens a parenthesis, what follows the first one in an arity error is the key. -/
theorem eq_of_arity {a b : Key} {name name' : String} {direction : Direction}
    (hname : '(' ∉ name.toList) (hname' : '(' ∉ name'.toList)
    (h : (PlanError.arity a name direction).message = (PlanError.arity b name' direction).message) :
    a = b := by
  rw [arity_message, arity_message] at h
  have hrests : a.display ++ afterArity direction = b.display ++ afterArity direction :=
    eq_after_name (by decide) (by decide) hname hname' ((String.append_right_inj _).1 h)
  exact eq_of_display ((String.append_left_inj _).1 hrests)

end Key

namespace Plan

variable {p : Plan}

/-- The end of the line for an operator: what it feeds. -/
def fed (p : Plan) (k : Key) : String :=
  if (p.successors k).isEmpty then "" else " -> " ++ ", ".intercalate (p.names (p.successors k))

theorem line_eq (p : Plan) (op : Operator) :
    p.line op = op.name ++ " [" ++ op.key.display ++ ("] " ++ op.kind.title ++ p.fed op.key) := by
  have hkey : toString op.key = op.key.display := rfl
  have htext : ∀ s : String, toString s = s := fun _ ↦ rfl
  rw [line, fed]
  split <;> simp [hkey, htext, String.append_assoc]

/-- Where edges stay inside the plan, all that an operator feeds has a name. -/
theorem Linked.names_successors_eq_nil_iff (h : p.Linked) {k : Key} :
    p.names (p.successors k) = [] ↔ p.successors k = [] := by
  rw [names, List.map_eq_nil_iff, List.filterMap_eq_nil_iff]
  refine ⟨fun hnone ↦ List.eq_nil_iff_forall_not_mem.2 fun j hj ↦ ?_, fun hnil ↦ by simp [hnil]⟩
  have hcontains := (h.contains_of_mem hj).2
  obtain ⟨op, hop⟩ := contains_iff.1 hcontains
  cases hop.symm.trans (hnone j hj)

theorem Linked.fed_eq (h : p.Linked) {k j : Key}
    (hnames : p.names (p.successors k) = p.names (p.successors j)) : p.fed k = p.fed j := by
  have hempty : p.successors k = [] ↔ p.successors j = [] := by
    rw [← h.names_successors_eq_nil_iff, hnames, h.names_successors_eq_nil_iff]
  rw [fed, fed, hnames]
  simp only [List.isEmpty_iff, hempty]

/-- Operators that look alike otherwise are told apart by their keys. -/
theorem Linked.key_eq_of_line (h : p.Linked) {op op' : Operator} (hname : op.name = op'.name)
    (hkind : op.kind = op'.kind)
    (hfed : p.names (p.successors op.key) = p.names (p.successors op'.key))
    (hline : p.line op = p.line op') : op.key = op'.key := by
  rw [line_eq, line_eq, hname, hkind, h.fed_eq hfed] at hline
  exact Key.Shows.injective ⟨_, _, fun _ ↦ rfl⟩ hline

/-! ### Names without brackets -/

/-- No name of an operator has a square bracket in it. -/
def Unbracketed (p : Plan) : Prop :=
  ∀ op ∈ p.operators, '[' ∉ op.name.toList ∧ ']' ∉ op.name.toList

instance : Decidable p.Unbracketed :=
  inferInstanceAs (Decidable (∀ op ∈ p.operators, _ ∧ _))

theorem exists_operator_of_mem_names {ks : List Key} {name : String} (h : name ∈ p.names ks) :
    ∃ op ∈ p.operators, op.name = name := by
  obtain ⟨op, hop, rfl⟩ := List.mem_map.1 h
  obtain ⟨k, -, hk⟩ := List.mem_filterMap.1 hop
  exact ⟨op, List.mem_map_of_mem (f := Prod.snd) (Table.get?_eq_some_iff.1 hk), rfl⟩

theorem exists_mem_of_mem_intercalate {c : Char} {sep : List Char} {texts : List (List Char)}
    (hsep : c ∉ sep) (h : c ∈ sep.intercalate texts) : ∃ text ∈ texts, c ∈ text := by
  induction texts with
  | nil => cases h
  | cons text texts ih =>
    cases texts with
    | nil => exact ⟨text, List.mem_singleton.2 rfl, by rwa [List.intercalate_singleton] at h⟩
    | cons next texts =>
      rw [List.intercalate_cons_cons, List.mem_append, List.mem_append] at h
      rcases h with (hmem | hmem) | hmem
      · exact ⟨text, List.mem_cons_self, hmem⟩
      · exact absurd hmem hsep
      · obtain ⟨found, hfound, hc⟩ := ih hmem
        exact ⟨found, List.mem_cons_of_mem _ hfound, hc⟩

/-- What an operator feeds is listed without brackets. -/
theorem Unbracketed.not_mem_fed (h : p.Unbracketed) (k : Key) : ']' ∉ (p.fed k).toList := by
  rw [fed]
  split
  · exact List.not_mem_nil
  · rw [String.toList_append, List.mem_append, String.toList_intercalate]
    rintro (hmem | hmem)
    · exact absurd hmem (by decide)
    · obtain ⟨text, htext, hc⟩ := exists_mem_of_mem_intercalate (by decide) hmem
      obtain ⟨name, hname, rfl⟩ := List.mem_map.1 htext
      obtain ⟨op, hop, rfl⟩ := exists_operator_of_mem_names hname
      exact (h op hop).2 hc

/-- **Brackets enclose the key.** Where no name has a bracket in it, the key of an operator stands
in its line between the first opening bracket and the last closing one, whatever the scopes are. -/
theorem Unbracketed.key_eq_of_line (h : p.Unbracketed) {op op' : Operator} (hop : op ∈ p.operators)
    (hop' : op' ∈ p.operators) (hline : p.line op = p.line op') : op.key = op'.key := by
  have hname (o : Operator) :
      p.line o = o.name ++ " [" ++ (o.key.display ++ ("] " ++ o.kind.title ++ p.fed o.key)) :=
    (p.line_eq o).trans String.append_assoc
  have hkey (o : Operator) : (o.key.display ++ ("] " ++ o.kind.title ++ p.fed o.key)).toList =
      o.key.display.toList ++ ']' :: (" " ++ o.kind.title ++ p.fed o.key).toList := by
    simp
  have hrest (o : Operator) : ']' ∉ (" " ++ o.kind.title ++ p.fed o.key).toList := by
    have htitle : ∀ kind ∈ Kind.all, ']' ∉ (" " ++ kind.title).toList := by decide
    rw [String.toList_append, List.mem_append]
    exact fun hmem ↦ hmem.elim (htitle _ o.kind.mem_all) (h.not_mem_fed o.key)
  rw [hname, hname] at hline
  have hafter := Key.eq_after_name (by decide) (by decide) (h op hop).1 (h op' hop').1 hline
  have htexts := congrArg String.toList hafter
  rw [hkey, hkey] at htexts
  exact Key.eq_of_display (String.toList_inj.1 (Key.split_at_last (hrest op) (hrest op') htexts).1)

/-- Two sinks of one name, whose keys are displayed alike but for a dash, and one of another
name. -/
def twins : Plan :=
  let near : Operator := ⟨⟨"1-2", 3⟩, "save", .sink, false, false⟩
  let far : Operator := ⟨⟨"1", 23⟩, "save", .sink, false, false⟩
  let other : Operator := ⟨⟨"", 123⟩, "keep", .sink, false, false⟩
  ((((∅ : Plan).add near).plan.add far).plan.add other).plan

/-- The second operator is named after the line of the first, and the third, which the first one
feeds, after the rest of the line of the second. The names and keys of the last two make the same
text when the keys are put in parentheses. -/
def lookalikes : Plan :=
  let read : Operator := ⟨⟨"doc", 0⟩, "read", .source, false, false⟩
  let mock : Operator := ⟨⟨"doc", 1⟩, "read [doc-0] Source -> save", .sink, false, false⟩
  let save : Operator := ⟨⟨"doc", 2⟩, "save [doc-1] Sink", .sink, false, false⟩
  let part : Operator := ⟨⟨"a (b", 1⟩, "part", .split, false, true⟩
  let copy : Operator := ⟨⟨"b", 1⟩, "part (a", .split, false, true⟩
  let documented := (((∅ : Plan).add read).plan.add mock).plan.add save
  (((documented.plan.add part).plan.add copy).plan.connect read.key save.key).plan

end Plan

namespace Key

/-- **What is displayed of a key identifies it.** Keys that are displayed alike are equal, whatever
their scopes, so the keys of a plan are all displayed differently; and whatever text stands around
it, a key cannot be taken for another one. So errors about two keys are told apart, and so are
recorded rewrites at them and lines of operators in a listing, where all but the keys is the same.
Where names differ, arity errors are told apart if the names open no parenthesis, and the lines of a
listing if no name in the plan has a square bracket in it. -/
theorem displays_tell_apart :
    (∀ a b : Key, a.display = b.display → a = b) ∧
    (∀ p : Plan, (p.keys.map display).Nodup) ∧
    (∀ (before after : String) (a b : Key),
      before ++ a.display ++ after = before ++ b.display ++ after → a = b) ∧
    (∀ a b : Key, a ≠ b →
      (PlanError.notInPlan a).message ≠ (PlanError.notInPlan b).message ∧
      (PlanError.duplicateKey a).message ≠ (PlanError.duplicateKey b).message ∧
      (∀ name name' direction, name = name' ∨ '(' ∉ name.toList ∧ '(' ∉ name'.toList →
        (PlanError.arity a name direction).message ≠
          (PlanError.arity b name' direction).message) ∧
      (∀ reason, (PlanError.traversal a reason).message ≠
        (PlanError.traversal b reason).message) ∧
      ∀ number rule before after, RewriteTrace.lines number ⟨rule, a, before, after⟩ ≠
        RewriteTrace.lines number ⟨rule, b, before, after⟩) ∧
    (∀ (p : Plan) (op op' : Operator), p.Linked → op.key ≠ op'.key → op.name = op'.name →
      op.kind = op'.kind → p.names (p.successors op.key) = p.names (p.successors op'.key) →
      p.line op ≠ p.line op') ∧
    ∀ p : Plan, p.Unbracketed → ∀ op ∈ p.operators, ∀ op' ∈ p.operators,
      op.key ≠ op'.key → p.line op ≠ p.line op' := by
  refine ⟨fun _ _ ↦ eq_of_display, fun p ↦ ?_, fun before after _ _ ↦ ?_, fun a b hne ↦ ?_, ?_, ?_⟩
  · exact (Plan.nodup_keys p).map fun _ _ ↦ eq_of_display
  · exact Shows.injective ⟨before, after, fun _ ↦ rfl⟩
  · refine ⟨mt shows_notInPlan.injective hne, mt shows_duplicateKey.injective hne, ?_,
      fun reason ↦ mt (shows_traversal reason).injective hne,
      fun number rule before after ↦ mt (shows_lines number rule before after).injective hne⟩
    rintro name name' direction (rfl | ⟨hname, hname'⟩)
    · exact mt (shows_arity name direction).injective hne
    · exact mt (eq_of_arity hname hname') hne
  · exact fun p op op' h hne hname hkind hfed ↦ mt (h.key_eq_of_line hname hkind hfed) hne
  · exact fun p h op hop op' hop' ↦ mt (h.key_eq_of_line hop hop')

/-- The sinks are told apart in a listing, as their keys are everywhere; and a lone dash for a scope
is told from an empty scope. -/
theorem displays_tell_apart_twins :
    let near : Operator := ⟨⟨"1-2", 3⟩, "save", .sink, false, false⟩
    let far : Operator := ⟨⟨"1", 23⟩, "save", .sink, false, false⟩
    let other : Operator := ⟨⟨"", 123⟩, "keep", .sink, false, false⟩
    Plan.twins.Linked ∧ Plan.twins.Unbracketed ∧ Plan.twins.operators = [other, far, near] ∧
      Plan.twins.line far ≠ Plan.twins.line near ∧ Plan.twins.line far ≠ Plan.twins.line other ∧
      (PlanError.notInPlan far.key).message ≠ (PlanError.notInPlan near.key).message ∧
      (PlanError.arity far.key far.name .inputs).message ≠
        (PlanError.arity other.key other.name .inputs).message ∧
      (Key.mk "-" 1).display = "--1" ∧ (Key.mk "-" 1).display ≠ (Key.mk "" 1).display ∧
      ∀ k : Key, k.display = "1-2-3" → k = near.key := by
  intro near far other
  have h : Plan.twins.Linked := (Plan.checkInvariants_eq_ok_iff.1 (by decide)).1
  have hplain : Plan.twins.Unbracketed := by decide
  obtain ⟨heq, -, -, herrors, halike, hline⟩ := displays_tell_apart
  have hnear : far.key ≠ near.key := by decide
  have hother : far.key ≠ other.key := by decide
  refine ⟨h, hplain, by decide, halike Plan.twins far near h hnear rfl rfl (by decide),
    hline Plan.twins hplain far (by decide) other (by decide) hother, (herrors _ _ hnear).1,
    (herrors _ _ hother).2.2.1 _ _ _ (.inr (by decide)), by decide,
    fun hbad ↦ absurd (heq _ _ hbad) (by decide), fun k hk ↦ ?_⟩
  exact heq k near.key (hk.trans (by decide))

/-- **Names are displayed as they are.** In a plan that keeps its invariants, two operators with
different keys have one line, and for two others it is the same in arity errors. -/
theorem lookalikes_not_told_apart :
    Plan.lookalikes.checkInvariants = .ok () ∧
      (¬∀ op ∈ Plan.lookalikes.operators, ∀ op' ∈ Plan.lookalikes.operators,
        op.key ≠ op'.key → Plan.lookalikes.line op ≠ Plan.lookalikes.line op') ∧
      ¬∀ op ∈ Plan.lookalikes.operators, ∀ op' ∈ Plan.lookalikes.operators, op.key ≠ op'.key →
        (PlanError.arity op.key op.name .inputs).message ≠
          (PlanError.arity op'.key op'.name .inputs).message := by
  let read : Operator := ⟨⟨"doc", 0⟩, "read", .source, false, false⟩
  let mock : Operator := ⟨⟨"doc", 1⟩, "read [doc-0] Source -> save", .sink, false, false⟩
  let part : Operator := ⟨⟨"a (b", 1⟩, "part", .split, false, true⟩
  let copy : Operator := ⟨⟨"b", 1⟩, "part (a", .split, false, true⟩
  refine ⟨by decide, fun h ↦ ?_, fun h ↦ ?_⟩
  · exact h read (by decide) mock (by decide) (by decide) (by decide)
  · exact h part (by decide) copy (by decide) (by decide) (by decide)

end Key

end Dataflow
