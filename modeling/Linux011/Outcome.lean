import Linux011.Loops

/-!
# Outcomes of a computation that may stop

`Ends E P x` says that `x` comes to its end in a value with `P`, or stops for a reason that `E`
allows. The rules follow the way a computation is put together.
-/

namespace Outcome

variable {ε α β : Type*} {E : ε → Prop} {P : α → Prop} {Q : β → Prop}

def Ends (E : ε → Prop) (P : α → Prop) : Except ε α → Prop
  | .ok a => P a
  | .error e => E e

theorem Ends.mono {P' : α → Prop} {x : Except ε α} (h : Ends E P x) (himp : ∀ a, P a → P' a) :
    Ends E P' x := by
  cases x with
  | ok a => exact himp a h
  | error e => exact h

theorem Ends.map {x : Except ε α} {f : α → β} (h : Ends E P x) (hf : ∀ a, P a → Q (f a)) :
    Ends E Q (x.map f) := by
  cases x with
  | ok a => exact hf a h
  | error e => exact h

/-- The rule of sequencing. -/
theorem Ends.bind.{u, v} {ε : Type u} {α β : Type v} {E : ε → Prop} {P : α → Prop} {Q : β → Prop}
    {x : Except ε α} {f : α → Except ε β} (h : Ends E P x) (hf : ∀ a, P a → Ends E Q (f a)) :
    Ends E Q (x >>= f) := by
  cases x with
  | ok a => exact hf a h
  | error e => exact h

end Outcome
