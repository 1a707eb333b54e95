/-!
# Answers that may be refused

A computation that gives the expected answer, or one certain error.  What is built from such
computations is one of them.
-/

namespace MerlionTsdb

/-- The answer is the expected one, or the error `e`. -/
def OrError {ε α : Type} (e : ε) (answer expected : Except ε α) : Prop :=
  answer = expected ∨ answer = .error e

namespace OrError

variable {ε α β : Type} {e : ε} {answer expected : Except ε α}

theorem refl (expected : Except ε α) : OrError e expected expected := Or.inl rfl

/-- A step behind the answer, which need only be as expected where the answer is. -/
theorem bind {f g : α → Except ε β} (h : OrError e answer expected)
    (hfg : ∀ a, expected = .ok a → OrError e (f a) (g a)) :
    OrError e (answer >>= f) (expected >>= g) := by
  rcases h with rfl | rfl
  · cases answer with
    | error e' => exact refl _
    | ok a => exact hfg a rfl
  · exact Or.inr rfl

/-- The same step behind both. -/
theorem bind_same (h : OrError e answer expected) (f : α → Except ε β) :
    OrError e (answer >>= f) (expected >>= f) := h.bind fun a _ ↦ refl (f a)

end OrError
end MerlionTsdb
