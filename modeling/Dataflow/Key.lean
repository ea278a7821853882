/-!
# Operator keys

Plans never hold operators by reference: every operator is addressed by its `Key`, a scope together
with a number inside that scope. Keys are ordered by scope first, code point by code point, and by
number second; this is the order in which a plan is iterated, rendered and snapshot.

`lt_irrefl`, `lt_trans` and `lt_trichotomy` say that `<` is a strict linear order. Everything that
keeps keys sorted rests on these three facts alone.

A `KeySupply` hands out the keys of one scope, one number after the other.
-/

namespace Dataflow

/-- The address of an operator: a scope and a number within it. -/
structure Key where
  scope : String
  id : UInt64
  deriving DecidableEq, Inhabited, Repr

namespace Key

/-- Scope first, number second. -/
instance : LT Key :=
  ⟨fun a b ↦ a.scope < b.scope ∨ a.scope = b.scope ∧ a.id < b.id⟩

instance : LE Key :=
  ⟨fun a b ↦ ¬b < a⟩

instance (a b : Key) : Decidable (a < b) :=
  inferInstanceAs (Decidable (_ ∨ _))

instance (a b : Key) : Decidable (a ≤ b) :=
  inferInstanceAs (Decidable (¬_))

/-- The written form: the bare number in the empty scope, and otherwise scope, dash and number. -/
def display (k : Key) : String :=
  if k.scope = "" then toString k.id.toNat else k.scope ++ "-" ++ toString k.id.toNat

instance : ToString Key :=
  ⟨display⟩

/-! ### The order -/

theorem lt_iff {a b : Key} : a < b ↔ a.scope < b.scope ∨ a.scope = b.scope ∧ a.id < b.id :=
  Iff.rfl

theorem lt_irrefl (a : Key) : ¬a < a := by
  rintro (h | ⟨-, h⟩)
  · exact String.lt_irrefl _ h
  · exact UInt64.lt_irrefl _ h

theorem lt_trans {a b c : Key} (hab : a < b) (hbc : b < c) : a < c := by
  rcases hab with h₁ | ⟨e₁, h₁⟩ <;> rcases hbc with h₂ | ⟨e₂, h₂⟩
  · exact .inl (String.lt_trans h₁ h₂)
  · exact .inl (e₂ ▸ h₁)
  · exact .inl (e₁ ▸ h₂)
  · exact .inr ⟨e₁.trans e₂, UInt64.lt_trans h₁ h₂⟩

/-- Any two keys are comparable. -/
theorem lt_trichotomy (a b : Key) : a < b ∨ a = b ∨ b < a := by
  by_cases h₁ : a.scope < b.scope
  · exact .inl (.inl h₁)
  by_cases h₂ : b.scope < a.scope
  · exact .inr (.inr (.inl h₂))
  have hs : a.scope = b.scope := String.le_antisymm (String.not_lt.1 h₂) (String.not_lt.1 h₁)
  by_cases he : a.id = b.id
  · exact .inr (.inl (by cases a; cases b; simp_all))
  · rcases UInt64.lt_or_lt_of_ne he with h | h
    · exact .inl (.inr ⟨hs, h⟩)
    · exact .inr (.inr (.inr ⟨hs.symm, h⟩))

theorem ne_of_lt {a b : Key} (h : a < b) : a ≠ b := by
  rintro rfl
  exact lt_irrefl _ h

theorem lt_asymm {a b : Key} (hab : a < b) : ¬b < a :=
  fun hba ↦ lt_irrefl _ (lt_trans hab hba)

theorem le_iff_lt_or_eq {a b : Key} : a ≤ b ↔ a < b ∨ a = b := by
  constructor
  · intro h
    rcases lt_trichotomy a b with h' | h' | h'
    · exact .inl h'
    · exact .inr h'
    · exact absurd h' h
  · rintro (h | rfl)
    · exact lt_asymm h
    · exact lt_irrefl a

theorem le_antisymm {a b : Key} (hab : a ≤ b) (hba : b ≤ a) : a = b := by
  rcases lt_trichotomy a b with h | h | h
  · exact absurd h hba
  · exact h
  · exact absurd h hab

theorem le_trans {a b c : Key} (hab : a ≤ b) (hbc : b ≤ c) : a ≤ c := by
  rcases le_iff_lt_or_eq.1 hab with h₁ | rfl
  · rcases le_iff_lt_or_eq.1 hbc with h₂ | rfl
    · exact lt_asymm (lt_trans h₁ h₂)
    · exact hab
  · exact hbc

theorem le_total (a b : Key) : a ≤ b ∨ b ≤ a := by
  rcases lt_trichotomy a b with h | rfl | h
  · exact .inl (lt_asymm h)
  · exact .inl (lt_irrefl a)
  · exact .inr (lt_asymm h)

/-- Keys in ascending order; a key that occurs twice is kept twice. -/
def sort (ks : List Key) : List Key :=
  ks.mergeSort fun a b ↦ decide (a ≤ b)

end Key

/-! ### Handing out keys -/

/-- The keys of one scope that have not been handed out yet: all numbers from `next` on. -/
structure KeySupply where
  scope : String
  next : UInt64
  deriving DecidableEq, Inhabited, Repr

namespace KeySupply

/-- A fresh supply starts at number zero. -/
def ofScope (scope : String) : KeySupply :=
  ⟨scope, 0⟩

/-- The key that is next in line. -/
def peek (s : KeySupply) : Key :=
  ⟨s.scope, s.next⟩

/-- Hands out the next key; the supply moves on by one. -/
def take (s : KeySupply) : Key × KeySupply :=
  (s.peek, { s with next := s.next + 1 })

/-- Hands out `n` keys, in order. -/
def takeMany : Nat → KeySupply → List Key × KeySupply
  | 0, s => ([], s)
  | n + 1, s =>
    let (k, s) := s.take
    let (ks, s) := takeMany n s
    (k :: ks, s)

end KeySupply

end Dataflow
