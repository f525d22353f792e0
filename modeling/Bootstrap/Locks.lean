import Mathlib.Logic.Function.Basic

/-! A lock and those who hold it, while threads take it and give it back. -/
namespace Bootstrap.Locks

variable {ω : Type} [DecidableEq ω]

def Held (holds : ω → Bool) (owner : Option ω) : Prop := ∀ w, holds w = true ↔ owner = some w

inductive Move (me : ω) : (before after : Bool) → Option ω → Option ω → Prop
  | keeps (b : Bool) (owner : Option ω) : Move me b b owner owner
  | takes : Move me false true none (some me)
  | gives (owner : Option ω) : Move me true false owner none

theorem heldMove {holds : ω → Bool} {me : ω} {after : Bool} {owner owner' : Option ω} (held : Held holds owner)
    (move : Move me (holds me) after owner owner') : Held (Function.update holds me after) owner' := by
  intro w
  by_cases own : w = me
  · subst own
    rw [Function.update_self]
    generalize same : holds w = before at move
    cases move with
    | keeps => rw [← same]; exact held w
    | takes => simp
    | gives => simp
  · rw [Function.update_of_ne own]
    have other := held w
    generalize same : holds me = before at move
    cases move with
    | keeps => exact other
    | takes =>
      rw [other]
      simpa using fun bad => own bad.symm
    | gives =>
      have mine := (held me).mp same
      rw [other, mine]
      simpa using fun bad => own bad.symm

omit [DecidableEq ω] in
theorem heldOne {holds : ω → Bool} {owner : Option ω} (held : Held holds owner) {a b : ω} (first : holds a = true)
    (second : holds b = true) : a = b :=
  Option.some.inj (((held a).mp first).symm.trans ((held b).mp second))

end Bootstrap.Locks
