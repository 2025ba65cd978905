import Mathlib.Logic.Basic

/-!
# Stretches that fail or do not end

A program that runs into errors is a computation in `Except`; with loops that need not come to an
end it is one in `ExceptT` over `Option`. These are the rules for what holds where such a
computation gets to, and for which errors it runs into.
-/
namespace Rzh

universe u

variable {ε α β σ : Type u} {E E' : ε → Prop} {P P' : α → Prop} {Q : β → Prop}

/-- What is returned is what `P` says, and an error is one of those in `E`. -/
def Within (E : ε → Prop) (P : α → Prop) : Except ε α → Prop
  | .ok a => P a
  | .error e => E e

/-- The same if it comes to an end. -/
def LoopWithin (E : ε → Prop) (P : α → Prop) (x : ExceptT ε Option α) : Prop :=
  ∀ r, x.run = some r → Within E P r

namespace Within

theorem of_ok {x : Except ε α} {a : α} (h : Within E P x) (hx : x = .ok a) : P a := by
  subst hx
  exact h

theorem of_error {x : Except ε α} {e : ε} (h : Within E P x) (hx : x = .error e) : E e := by
  subst hx
  exact h

theorem mono {x : Except ε α} (h : Within E P x) (hE : ∀ e, E e → E' e) (hP : ∀ a, x = .ok a → P a → P' a) :
    Within E' P' x := by
  cases x with
  | ok a => exact hP a rfl h
  | error e => exact hE e h

theorem bind {x : Except ε α} {f : α → Except ε β} (h : Within E P x)
    (hf : ∀ a, P a → Within E Q (f a)) : Within E Q (x >>= f) := by
  cases x with
  | ok a => exact hf a h
  | error e => exact h

end Within

namespace LoopWithin

theorem pure {a : α} (h : P a) : LoopWithin E P (Pure.pure a) := by
  intro r hr
  cases hr
  exact h

theorem throw {e : ε} (h : E e) : LoopWithin E P (throw e) := by
  intro r hr
  cases hr
  exact h

/-- A stretch without a loop. -/
theorem once {x : Except ε α} (h : Within E P x) : LoopWithin E P (liftM x) := by
  intro r hr
  cases hr
  exact h

theorem unfinished : LoopWithin E P (ExceptT.mk none) := by
  intro r hr
  cases hr

theorem mono {x : ExceptT ε Option α} (h : LoopWithin E P x) (hE : ∀ e, E e → E' e) (hP : ∀ a, P a → P' a) :
    LoopWithin E' P' x := fun r hr => (h r hr).mono hE fun a _ => hP a

theorem bind {x : ExceptT ε Option α} {f : α → ExceptT ε Option β} (h : LoopWithin E P x)
    (hf : ∀ a, P a → LoopWithin E Q (f a)) : LoopWithin E Q (x >>= f) := by
  intro r hr
  cases x with
  | none => cases hr
  | some y =>
    have hy := h y rfl
    cases y with
    | ok a => exact hf a hy r hr
    | error e =>
      cases hr
      exact hy

/-- A loop in rounds: each round goes on from what the invariant says, if it goes on. -/
theorem rounds {f : Nat → σ → ExceptT ε Option α} {I : σ → Prop} (hzero : ∀ s, f 0 s = ExceptT.mk none)
    (hround : ∀ n s, I s → (∀ s', I s' → LoopWithin E P (f n s')) → LoopWithin E P (f (n + 1) s))
    (n : Nat) {s : σ} (h : I s) : LoopWithin E P (f n s) := by
  induction n generalizing s with
  | zero =>
    rw [hzero]
    exact unfinished
  | succ n ih => exact hround n s h fun s' h' => ih h'

end LoopWithin

end Rzh
