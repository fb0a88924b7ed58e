/-!
What a rule of a grammar has read from the front of a list of tokens.

The tokens that are left come with the fact that they are fewer than a bound. A rule that reads at
least one token is bounded by the number it was given, and a rule that may read none by one more.
A loop over readings then ends because the number of tokens falls.
-/

namespace RowAwk

/-- A value, and the tokens after it: fewer than `bound`. -/
structure Reading (τ α : Type) (bound : Nat) where
  value : α
  rest : List τ
  fewer : rest.length < bound

namespace Reading

/-- The same reading with another value. -/
def map {τ α β : Type} {bound : Nat} (f : α → β) (r : Reading τ α bound) : Reading τ β bound :=
  ⟨f r.value, r.rest, r.fewer⟩

/-- The same reading under a higher bound. -/
def weaken {τ α : Type} {bound bound' : Nat} (r : Reading τ α bound) (h : bound ≤ bound') :
    Reading τ α bound' :=
  ⟨r.value, r.rest, Nat.lt_of_lt_of_le r.fewer h⟩

end Reading

end RowAwk
