/-!
# Costs

How many expansions deep the flattest derivation is: a number, or infinity where there is none.
-/

namespace GrammarSampler

inductive Cost where
  | finite (n : Nat)
  | infinite
  deriving DecidableEq, Repr, Inhabited

namespace Cost

def isFinite : Cost → Bool
  | .finite _ => true
  | .infinite => false

def value? : Cost → Option Nat
  | .finite n => some n
  | .infinite => none

def succ : Cost → Cost
  | .finite n => .finite (n + 1)
  | .infinite => .infinite

/-! ## Order -/

/-- Numbers as usual, and infinity above them all. -/
protected def le : Cost → Cost → Bool
  | .finite m, .finite n => m ≤ n
  | _, .infinite => true
  | .infinite, .finite _ => false

instance : LE Cost := ⟨fun a b => a.le b = true⟩

instance : LT Cost := ⟨fun a b => ¬ b ≤ a⟩

instance (a b : Cost) : Decidable (a ≤ b) := inferInstanceAs (Decidable (a.le b = true))

instance (a b : Cost) : Decidable (a < b) := inferInstanceAs (Decidable (¬ b ≤ a))

instance : Min Cost := ⟨fun a b => if a ≤ b then a else b⟩

instance : Max Cost := ⟨fun a b => if a ≤ b then b else a⟩

@[simp]
theorem finite_le_finite {m n : Nat} : Cost.finite m ≤ .finite n ↔ m ≤ n := by
  show Cost.le _ _ = true ↔ _
  simp [Cost.le]

@[simp]
theorem le_infinite (a : Cost) : a ≤ .infinite := by cases a <;> rfl

@[simp]
theorem not_infinite_le_finite (n : Nat) : ¬ Cost.infinite ≤ .finite n := nofun

protected theorem le_refl (a : Cost) : a ≤ a := by cases a <;> simp

protected theorem le_trans {a b c : Cost} (hab : a ≤ b) (hbc : b ≤ c) : a ≤ c := by
  cases c with
  | infinite => simp
  | finite n =>
    cases b with
    | infinite => simp at hbc
    | finite m =>
      cases a with
      | infinite => simp at hab
      | finite l =>
        simp only [finite_le_finite] at *
        omega

protected theorem le_antisymm {a b : Cost} (hab : a ≤ b) (hba : b ≤ a) : a = b := by
  cases a <;> cases b <;> simp_all
  omega

protected theorem le_total (a b : Cost) : a ≤ b ∨ b ≤ a := by
  cases a <;> cases b <;> simp
  omega

def sort (costs : List Cost) : List Cost := costs.mergeSort Cost.le

def text : Cost → String
  | .finite n => toString n
  | .infinite => "inf"

end Cost

end GrammarSampler
