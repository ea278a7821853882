import Dataflow.Proofs.LinkedEdits

/-!
# What validation asks for

The check of each edit, spelled out as the condition under which it succeeds, and compared with what
the edit would do if it were made without a check.
-/

namespace Dataflow

/-- The edit was refused. -/
def Outcome.Refused {ε α : Type} (o : Outcome ε α) : Prop :=
  ∃ e, o.answer = .error e

theorem Outcome.refused_unit_iff {ε : Type} {o : Outcome ε Unit} :
    o.Refused ↔ ¬o.answer = .ok () :=
  Check.exists_error_iff.trans (not_congr Check.exists_ok_iff)

namespace Plan

variable {p : Plan}

/-- The plan does not pass `checkInvariants`. -/
def Rejected (p : Plan) : Prop :=
  ∃ e, p.checkInvariants = .error e

theorem rejected_iff : p.Rejected ↔ ¬p.checkInvariants = .ok () :=
  Check.exists_error_iff.trans (not_congr Check.exists_ok_iff)

/-! ### When a check succeeds -/

theorem checkConnect_eq_ok_iff {source target : Key} :
    p.checkConnect source target = .ok () ↔
      ∃ f, p.operator? source = some f ∧ ∃ g, p.operator? target = some g ∧
        source ≠ target ∧ target ∉ p.successors source ∧
        (0 < p.outDegree source → f.multiOutput) ∧ (0 < p.inDegree target → g.multiInput) := by
  simp only [checkConnect, Check.bind_eq_ok_iff, lookup_eq_ok_iff, Check.throw_bind,
    Check.guard_eq_ok_iff, Check.pure_eq_ok_iff, Check.not_unpermitted_iff, hasEdge_iff, gt_iff_lt,
    and_true, ne_eq]

theorem checkInsertBetween_eq_ok_iff {after between before : Key} :
    p.checkInsertBetween after between before = .ok () ↔
      p.contains after ∧ ∃ op, p.operator? between = some op ∧ p.contains before ∧
        before ∈ p.successors after ∧ (between ≠ after ∧ between ≠ before) ∧
        (0 < p.inDegree between → op.multiInput) ∧ (0 < p.outDegree between → op.multiOutput) ∧
        between ∉ p.successors after ∧ before ∉ p.successors between := by
  simp only [checkInsertBetween, Check.bind_eq_ok_iff, lookup_eq_ok_iff, Check.throw_bind,
    Check.guard_eq_ok_iff, Check.pure_eq_ok_iff, Check.not_unpermitted_iff, hasEdge_iff,
    Bool.not_eq_true', Bool.not_eq_false, Bool.or_eq_true, decide_eq_true_eq, not_or, gt_iff_lt,
    contains_iff, exists_and_right, and_true, ne_eq]

theorem checkBypass_eq_ok_iff {k : Key} :
    p.checkBypass k = .ok () ↔ p.contains k ∧ p.inDegree k ≤ 1 ∧
      ∀ before, (p.predecessors k).head? = some before → before ∉ p.successors k ∧
        ∃ op, p.operator? before = some op ∧
          (1 < p.outDegree before - 1 + p.outDegree k → op.multiOutput) ∧
          ∀ s ∈ p.successors k, s ∉ p.successors before := by
  have hdup : ∀ before, (∀ s ∈ p.successors k, s ∉ p.successors before) ↔
      (p.successors k).find? (p.hasEdge before) = none := fun before ↦ by
    simp only [List.find?_eq_none, hasEdge_iff]
  rw [checkBypass]
  simp only [hdup, Check.bind_eq_ok_iff, lookup_eq_ok_iff, Check.throw_bind, Check.guard_eq_ok_iff,
    gt_iff_lt, Nat.not_lt, exists_and_right, ← contains_iff]
  rcases p.predecessors k with - | ⟨before, rest⟩
  · simp [Check.pure_eq_ok_iff]
  · simp only [Check.bind_eq_ok_iff, lookup_eq_ok_iff, Check.guard_eq_ok_iff,
      Check.not_unpermitted_iff', List.contains_iff_mem, List.head?_cons, Option.some.injEq,
      forall_eq']
    cases (p.successors k).find? (p.hasEdge before) <;>
      simp [Check.pure_eq_ok_iff, Check.throw_ne_ok]

theorem checkReplace_eq_ok_iff {old : Key} {new op : Operator} :
    p.checkReplace old new = .ok op ↔ p.operator? old = some op ∧ ¬p.contains new.key := by
  simp only [checkReplace, Check.bind_eq_ok_iff, lookup_eq_ok_iff, Check.throw_bind,
    Check.guard_eq_ok_iff, Check.pure_eq_ok_iff]
  constructor
  · rintro ⟨_, hop, hnew, rfl⟩
    exact ⟨hop, hnew⟩
  · rintro ⟨hop, hnew⟩
    exact ⟨op, hop, hnew, rfl⟩

theorem checkInherit_eq_ok_iff {new : Operator} {outs ins : List Key} :
    checkInherit new outs ins = .ok () ↔
      (1 < outs.length → new.multiOutput) ∧ (1 < ins.length → new.multiInput) := by
  simp only [checkInherit, Check.throw_bind, Check.guard_eq_ok_iff, Check.pure_eq_ok_iff,
    Check.not_unpermitted_iff', gt_iff_lt, and_true]

theorem replace_answer_eq_ok_iff {old : Key} {new op : Operator} :
    (p.replace old new).answer = .ok op ↔ p.checkReplace old new = .ok op ∧
      checkInherit new (p.successors old) (p.predecessors old) = .ok () := by
  rw [replace]
  cases p.checkReplace old new with
  | error e => simp
  | ok op' => cases checkInherit new (p.successors old) (p.predecessors old) <;> simp

theorem removeAndReconnect_answer_eq_ok_iff {k : Key} {op : Operator} :
    (p.removeAndReconnect k).answer = .ok op ↔
      p.checkBypass k = .ok () ∧ p.operator? k = some op := by
  show (do p.checkBypass k; p.lookup k) = Except.ok op ↔ _
  rw [Check.unit_bind_eq_ok_iff, lookup_eq_ok_iff]

/-- What an edit that is committed in one go leaves, once it has gone through. -/
theorem commit_of_ok {ε α : Type} {verdict : Except ε α} {edited : α → Plan} {a : α}
    (h : (p.commit verdict edited).answer = .ok a) : p.commit verdict edited = ⟨.ok a, edited a⟩ := by
  obtain rfl : verdict = .ok a := h
  rfl

/-- An operator whose key is free is added. -/
theorem add_of_free {op : Operator} (h : p.contains op.key = false) :
    p.add op = ⟨.ok op.key, p.put op⟩ := by
  rw [add, h]
  rfl

/-- What a replacement leaves, once it has gone through. -/
theorem replace_of_ok {old : Key} {new op : Operator} (h : (p.replace old new).answer = .ok op) :
    p.replace old new = ⟨.ok op, p.substitute old new⟩ := by
  obtain ⟨hcheck, hinherit⟩ := replace_answer_eq_ok_iff.1 h
  rw [replace, hcheck]
  dsimp only
  rw [hinherit]

/-- Removal goes through whenever its check does. -/
theorem removeAndReconnect_eq {k : Key} (h : p.checkBypass k = .ok ()) :
    ∃ op, p.removeAndReconnect k = ⟨.ok op, p.bypass k⟩ := by
  obtain ⟨op, hop⟩ := contains_iff.1 (checkBypass_eq_ok_iff.1 h).1
  have hverdict : (do p.checkBypass k; p.lookup k) = Except.ok op := by
    rw [h, ← lookup_eq_ok_iff.2 hop]
    rfl
  exact ⟨op, by rw [removeAndReconnect, hverdict]; rfl⟩

/-- Plans can be merged when they share no operator. -/
theorem checkMerge_eq_ok_iff {q : Plan} :
    p.checkMerge q = .ok () ↔ ∀ k, q.contains k → ¬p.contains k := by
  simp only [← mem_keys_iff (p := q), checkMerge]
  split
  next k hk =>
    exact iff_of_false nofun fun hn ↦ hn k (List.mem_of_find?_eq_some hk) (List.find?_some hk)
  next hk => exact iff_of_true rfl (List.find?_eq_none.1 hk)

/-! ### Checks are exact

On a plan that is linked and respects arities, a check succeeds exactly when the operators it speaks
of are there and the unchecked change would keep the plan so. -/

section Exact

variable (h : p.Linked) (ha : p.RespectsArity)

include h ha

theorem checkConnect_eq_ok_iff_link (source target : Key) :
    p.checkConnect source target = .ok () ↔ p.contains source ∧ p.contains target ∧
      (p.link source target).checkInvariants = .ok () := by
  rw [checkConnect_eq_ok_iff]
  constructor
  · rintro ⟨f, hf, g, hg, hne, hnot, hout, hin⟩
    have hs := contains_iff.2 ⟨f, hf⟩
    have ht := contains_iff.2 ⟨g, hg⟩
    exact ⟨hs, ht, checkInvariants_eq_ok_iff.2
      ⟨(h.link_iff hs ht).2 ⟨hne, hnot⟩, (ha.link_iff hf hg).2 ⟨hout, hin⟩⟩⟩
  · rintro ⟨hs, ht, hok⟩
    obtain ⟨hl, hla⟩ := checkInvariants_eq_ok_iff.1 hok
    obtain ⟨f, hf⟩ := contains_iff.1 hs
    obtain ⟨g, hg⟩ := contains_iff.1 ht
    obtain ⟨hne, hnot⟩ := (h.link_iff hs ht).1 hl
    exact ⟨f, hf, g, hg, hne, hnot, (ha.link_iff hf hg).1 hla⟩

theorem checkInsertBetween_eq_ok_iff_reroute (after between before : Key) :
    p.checkInsertBetween after between before = .ok () ↔
      p.contains after ∧ p.contains between ∧ p.contains before ∧ before ∈ p.successors after ∧
        (p.reroute after between before).checkInvariants = .ok () := by
  rw [checkInsertBetween_eq_ok_iff]
  constructor
  · rintro ⟨haf, op, hop, hbe, hedge, ⟨hne, hne'⟩, hin, hout, hnot, hnot'⟩
    have hb := contains_iff.2 ⟨op, hop⟩
    exact ⟨haf, hb, hbe, hedge, checkInvariants_eq_ok_iff.2
      ⟨(h.reroute_iff hedge hb).2 ⟨hne, hne', hnot, hnot'⟩, (ha.reroute_iff hop).2 ⟨hout, hin⟩⟩⟩
  · rintro ⟨haf, hb, hbe, hedge, hok⟩
    obtain ⟨hl, hla⟩ := checkInvariants_eq_ok_iff.1 hok
    obtain ⟨op, hop⟩ := contains_iff.1 hb
    obtain ⟨hne, hne', hnot, hnot'⟩ := (h.reroute_iff hedge hb).1 hl
    obtain ⟨hout, hin⟩ := (ha.reroute_iff hop).1 hla
    exact ⟨haf, op, hop, hbe, hedge, ⟨hne, hne'⟩, hin, hout, hnot, hnot'⟩

theorem checkBypass_eq_ok_iff_bypass (k : Key) :
    p.checkBypass k = .ok () ↔
      p.contains k ∧ p.inDegree k ≤ 1 ∧ (p.bypass k).checkInvariants = .ok () := by
  rw [checkBypass_eq_ok_iff, checkInvariants_eq_ok_iff]
  refine and_congr_right fun _ ↦ and_congr_right fun hk ↦ ?_
  rw [h.bypass_iff hk, ha.bypass_iff h hk]
  simp only [h.head?_predecessors_iff hk]
  constructor
  · intro hfree
    refine ⟨fun before hbefore ↦ ?_, fun before op hbefore hop hlen ↦ ?_⟩
    · obtain ⟨hloop, _, -, -, hdup⟩ := hfree before hbefore
      exact ⟨hloop, hdup⟩
    · obtain ⟨-, op', hop', hmany, -⟩ := hfree before hbefore
      exact Option.some.inj (hop'.symm.trans hop) ▸ hmany hlen
  · rintro ⟨hl, hla⟩ before hbefore
    obtain ⟨hloop, hdup⟩ := hl before hbefore
    obtain ⟨op, hop⟩ := contains_iff.1 (h.contains_of_mem hbefore).1
    exact ⟨hloop, op, hop, hla before op hbefore hop, hdup⟩

theorem replace_answer_eq_ok_iff_substitute {old : Key} {new op : Operator} :
    (p.replace old new).answer = .ok op ↔
      p.operator? old = some op ∧ ¬p.contains new.key ∧
        (p.substitute old new).checkInvariants = .ok () := by
  rw [replace_answer_eq_ok_iff, checkReplace_eq_ok_iff, checkInherit_eq_ok_iff, and_assoc,
    checkInvariants_eq_ok_iff]
  refine and_congr_right fun _ ↦ and_congr_right fun hnew ↦ ?_
  rw [ha.substitute_iff h, and_iff_right (h.substitute old hnew)]
  rfl

end Exact

/-- **Validation is neither too lax nor too strict.** On a plan that passes `checkInvariants`, each
of the four edits that change edges is refused exactly when it speaks of something that is not there
(or, for a replacement, already there; or, for a reconnection, not unique) or when the plan that it
would lead to without a check does not pass. -/
theorem refused_iff_rejected (h : p.checkInvariants = .ok ()) :
    (∀ source target, (p.connect source target).Refused ↔
      ¬p.contains source ∨ ¬p.contains target ∨ (p.link source target).Rejected) ∧
    (∀ after between before, (p.insertBetween after between before).Refused ↔
      ¬p.contains after ∨ ¬p.contains between ∨ ¬p.contains before ∨ ¬p.hasEdge after before ∨
        (p.reroute after between before).Rejected) ∧
    (∀ k, (p.removeAndReconnect k).Refused ↔
      ¬p.contains k ∨ 1 < p.inDegree k ∨ (p.bypass k).Rejected) ∧
    ∀ old new, (p.replace old new).Refused ↔
      ¬p.contains old ∨ p.contains new.key ∨ (p.substitute old new).Rejected := by
  obtain ⟨hl, ha⟩ := checkInvariants_eq_ok_iff.1 h
  -- What a committed edit answers is the verdict of its check, and the checks are exact.
  refine ⟨fun source target ↦ ?_, fun after between before ↦ ?_, fun k ↦ ?_, fun old new ↦ ?_⟩
  · have hok := checkConnect_eq_ok_iff_link hl ha source target
    rw [Outcome.refused_unit_iff, rejected_iff]
    show ¬p.checkConnect source target = .ok () ↔ _
    rw [hok]
    tauto
  · have hok := checkInsertBetween_eq_ok_iff_reroute hl ha after between before
    rw [Outcome.refused_unit_iff, rejected_iff]
    show ¬p.checkInsertBetween after between before = .ok () ↔ _
    rw [hok, hasEdge_iff]
    tauto
  · rw [Outcome.Refused, Check.exists_error_iff, rejected_iff]
    simp only [removeAndReconnect_answer_eq_ok_iff, exists_and_left, ← contains_iff,
      checkBypass_eq_ok_iff_bypass hl ha]
    have := Nat.not_le (a := p.inDegree k) (b := 1)
    tauto
  · rw [Outcome.Refused, Check.exists_error_iff, rejected_iff]
    simp only [replace_answer_eq_ok_iff_substitute hl ha, exists_and_right, ← contains_iff]
    tauto

/-- A source feeds a split, and the split feeds two sinks. -/
def fork : Plan :=
  let read : Operator := ⟨⟨"flow", 0⟩, "read", .source, false, false⟩
  let copy : Operator := ⟨⟨"flow", 1⟩, "copy", .split, false, true⟩
  let west : Operator := ⟨⟨"flow", 2⟩, "west", .sink, false, false⟩
  let east : Operator := ⟨⟨"flow", 3⟩, "east", .sink, false, false⟩
  let bare := (((((∅ : Plan).add read).plan.add copy).plan.add west).plan.add east).plan
  (((bare.connect read.key copy.key).plan.connect copy.key west.key).plan.connect
    copy.key east.key).plan

/-- In the fork, the source cannot feed a second operator, a sink cannot be inserted before the
split, and the split can neither be bypassed nor give way to a transform, but to another split. -/
theorem refused_iff_rejected_fork :
    fork.checkInvariants = .ok () ∧
      (fork.connect ⟨"flow", 0⟩ ⟨"flow", 2⟩).Refused ∧
      (fork.insertBetween ⟨"flow", 0⟩ ⟨"flow", 2⟩ ⟨"flow", 1⟩).Refused ∧
      (fork.removeAndReconnect ⟨"flow", 1⟩).Refused ∧
      (fork.replace ⟨"flow", 1⟩ ⟨⟨"flow", 4⟩, "map", .transform, false, false⟩).Refused ∧
      ¬(fork.replace ⟨"flow", 1⟩ ⟨⟨"flow", 4⟩, "tee", .split, false, true⟩).Refused := by
  have h : fork.checkInvariants = .ok () := by decide
  obtain ⟨hconnect, hinsert, hbypass, hreplace⟩ := refused_iff_rejected h
  refine ⟨h, (hconnect _ _).2 ?_, (hinsert _ _ _).2 ?_, (hbypass _).2 ?_, (hreplace _ _).2 ?_, ?_⟩
  · exact .inr (.inr ⟨_, rfl⟩)
  · exact .inr (.inr (.inr (.inr ⟨_, rfl⟩)))
  · exact .inr (.inr ⟨_, rfl⟩)
  · exact .inr (.inr ⟨_, rfl⟩)
  · rw [hreplace, rejected_iff]
    decide

end Plan

end Dataflow
