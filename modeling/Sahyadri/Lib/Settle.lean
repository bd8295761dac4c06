import Mathlib.Algebra.BigOperators.Group.List.Basic
import Mathlib.Algebra.Ring.Nat

/-!
# A balance under saturating debits and credits

* `settle cap b cs`: the balance `b` after the changes `cs`, one after the other. A debit stops at
  zero and a credit at `cap`.
-/

namespace Sahyadri.Lib

/-- A change of a balance. -/
inductive Change where
  | debit (n : Nat)
  | credit (n : Nat)
  deriving DecidableEq, Repr

namespace Change

def taken : Change → Nat
  | debit n => n
  | credit _ => 0

def given : Change → Nat
  | debit _ => 0
  | credit n => n

/-- One change, with both ends cut off. -/
def apply (cap b : Nat) : Change → Nat
  | debit n => b - n
  | credit n => min (b + n) cap

end Change

def debits (cs : List Change) : Nat := (cs.map Change.taken).sum

def credits (cs : List Change) : Nat := (cs.map Change.given).sum

def settle (cap b : Nat) (cs : List Change) : Nat := cs.foldl (Change.apply cap) b

/-- Neither end is reached, whatever the order. -/
structure Covered (cap b : Nat) (cs : List Change) : Prop where
  debits : debits cs ≤ b
  credits : b + credits cs ≤ cap

instance (cap b : Nat) (cs : List Change) : Decidable (Covered cap b cs) :=
  decidable_of_iff (debits cs ≤ b ∧ b + credits cs ≤ cap)
    ⟨fun h => ⟨h.1, h.2⟩, fun h => ⟨h.debits, h.credits⟩⟩

theorem debits_append (cs ds : List Change) : debits (cs ++ ds) = debits cs + debits ds := by
  rw [debits, List.map_append, List.sum_append, debits, debits]

theorem credits_append (cs ds : List Change) : credits (cs ++ ds) = credits cs + credits ds := by
  rw [credits, List.map_append, List.sum_append, credits, credits]

theorem settle_append (cap b : Nat) (cs ds : List Change) :
    settle cap b (cs ++ ds) = settle cap (settle cap b cs) ds := List.foldl_append

/-- **Nothing is cut off.** -/
theorem settle_eq {cap : Nat} : ∀ {cs : List Change} {b : Nat}, Covered cap b cs →
    settle cap b cs + debits cs = b + credits cs
  | [], _, _ => rfl
  | .debit n :: cs, b, h => by
    have hd : n + debits cs ≤ b := h.debits
    have hc : b + (0 + credits cs) ≤ cap := h.credits
    have hrest : Covered cap (b - n) cs := ⟨by omega, by omega⟩
    have ih := settle_eq hrest
    show settle cap (b - n) cs + (n + debits cs) = b + (0 + credits cs)
    omega
  | .credit n :: cs, b, h => by
    have hd : 0 + debits cs ≤ b := h.debits
    have hc : b + (n + credits cs) ≤ cap := h.credits
    have hrest : Covered cap (b + n) cs := ⟨by omega, by omega⟩
    have ih := settle_eq hrest
    show settle cap (min (b + n) cap) cs + (0 + debits cs) = b + (n + credits cs)
    rw [Nat.min_eq_left (by omega)]
    omega

section

variable {cs ds : List Change} {cap b : Nat}

theorem debits_perm (h : cs.Perm ds) : debits cs = debits ds := (h.map Change.taken).sum_eq

theorem credits_perm (h : cs.Perm ds) : credits cs = credits ds := (h.map Change.given).sum_eq

theorem Covered.perm (h : Covered cap b cs) (hp : cs.Perm ds) :
    Covered cap b ds := ⟨debits_perm hp ▸ h.debits, credits_perm hp ▸ h.credits⟩

/-- **The order does not matter.** -/
theorem settle_perm (h : Covered cap b cs) (hp : cs.Perm ds) :
    settle cap b cs = settle cap b ds := by
  have h1 := settle_eq h
  have h2 := settle_eq (h.perm hp)
  rw [← debits_perm hp, ← credits_perm hp] at h2
  omega

end

/-- Every debit is there when its turn comes. -/
def Affordable (cap : Nat) : Nat → List Change → Prop
  | _, [] => True
  | b, .debit n :: cs => n ≤ b ∧ Affordable cap (b - n) cs
  | b, .credit n :: cs => Affordable cap (min (b + n) cap) cs

/-- What the credits lose at the upper end. -/
def excess (cap : Nat) : Nat → List Change → Nat
  | _, [] => 0
  | b, .debit n :: cs => excess cap (b - n) cs
  | b, .credit n :: cs => b + n - cap + excess cap (min (b + n) cap) cs

/-- **Only the upper end cuts off** if the debits are affordable. -/
theorem settle_add_excess {cap : Nat} : ∀ {cs : List Change} {b : Nat}, Affordable cap b cs →
    settle cap b cs + debits cs + excess cap b cs = b + credits cs
  | [], _, _ => rfl
  | .debit n :: cs, b, h => by
    obtain ⟨hn, hrest⟩ := h
    have ih := settle_add_excess hrest
    show settle cap (b - n) cs + (n + debits cs) + excess cap (b - n) cs = b + (0 + credits cs)
    omega
  | .credit n :: cs, b, h => by
    have ih := @settle_add_excess cap cs (min (b + n) cap) h
    show settle cap (min (b + n) cap) cs + (0 + debits cs) +
      (b + n - cap + excess cap (min (b + n) cap) cs) = b + (n + credits cs)
    omega

theorem excess_eq_zero {cap : Nat} :
    ∀ {cs : List Change} {b : Nat}, b + credits cs ≤ cap → excess cap b cs = 0
  | [], _, _ => rfl
  | .debit n :: cs, b, h => by
    have hsum : b + (0 + credits cs) ≤ cap := h
    exact @excess_eq_zero cap cs (b - n) (by omega)
  | .credit n :: cs, b, h => by
    have hsum : b + (n + credits cs) ≤ cap := h
    have ih := @excess_eq_zero cap cs (min (b + n) cap) (by omega)
    show b + n - cap + excess cap (min (b + n) cap) cs = 0
    omega

theorem affordable_append {cap : Nat} {ds : List Change} : ∀ {cs : List Change} {b : Nat},
    Affordable cap b (cs ++ ds) ↔ Affordable cap b cs ∧ Affordable cap (settle cap b cs) ds
  | [], _ => (iff_of_eq (true_and _)).symm
  | .debit _ :: cs,
      _ => (and_congr_right fun _ => @affordable_append cap ds cs _).trans and_assoc.symm
  | .credit _ :: cs, _ => @affordable_append cap ds cs _

theorem affordable_of_debits_eq_zero {cap : Nat} :
    ∀ {cs : List Change} {b : Nat}, debits cs = 0 → Affordable cap b cs
  | [], _, _ => trivial
  | .debit n :: cs, b, h => by
    have hsum : n + debits cs = 0 := h
    exact ⟨by omega, affordable_of_debits_eq_zero (by omega)⟩
  | .credit n :: cs, b, h => by
    have hsum : 0 + debits cs = 0 := h
    exact @affordable_of_debits_eq_zero cap cs _ (by omega)

theorem settle_of_credits_eq_zero {cap : Nat} :
    ∀ {cs : List Change} {b : Nat}, credits cs = 0 → b ≤ cap → settle cap b cs = b - debits cs
  | [], _, _, _ => rfl
  | .debit n :: cs, b, h, hb => by
    have hsum : 0 + credits cs = 0 := h
    have ih := @settle_of_credits_eq_zero cap cs (b - n) (by omega) (by omega)
    show settle cap (b - n) cs = b - (n + debits cs)
    omega
  | .credit n :: cs, b, h, hb => by
    have hsum : n + credits cs = 0 := h
    have ih := @settle_of_credits_eq_zero cap cs (min (b + n) cap) (by omega) (by omega)
    show settle cap (min (b + n) cap) cs = b - (0 + debits cs)
    omega

end Sahyadri.Lib
