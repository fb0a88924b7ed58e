/-!
Computations that may fail, taken apart.

Each lemma turns the success of a composed computation into the successes of its parts, or finds a
success where a test on the outcome has come out true.
-/

open List

namespace RowAwk

variable {ε α β : Type}

theorem except_bind_eq_ok {x : Except ε α} {f : α → Except ε β} {b : β} :
    (x >>= f) = .ok b ↔ ∃ a, x = .ok a ∧ f a = .ok b := by
  cases x with
  | error e | ok a => simp [bind, Except.bind]

theorem except_map_eq_ok {x : Except ε α} {f : α → β} {b : β} :
    x.map f = .ok b ↔ ∃ a, x = .ok a ∧ f a = b := by
  cases x with
  | error e | ok a => simp [Except.map]

instance decidableExistsOk {ε α : Type} {x : Except ε α} {P : α → Prop} [DecidablePred P] :
    Decidable (∃ a, x = .ok a ∧ P a) :=
  match x with
  | .error _ => .isFalse <| by simp
  | .ok a => decidable_of_iff (P a) <| by simp

instance decidableExistsOk₂ {ε α β : Type} {x : Except ε α} {P : α → β → Prop}
    [∀ a, Decidable (∃ b, P a b)] : Decidable (∃ a b, x = .ok a ∧ P a b) :=
  decidable_of_iff (∃ a, x = .ok a ∧ ∃ b, P a b) <| by simp only [exists_and_left]

theorem exists_eq_ok {x : Except ε α} (h : x.toBool = true) : ∃ a, x = .ok a := by
  cases x with
  | error e => cases h
  | ok a => exact ⟨a, rfl⟩

/-- What holds of every outcome holds of the outcome that there is. -/
theorem exists_ok_of {x : Except ε α} {Q : α → Prop} (h : x.toBool = true)
    (hQ : ∀ a, x = .ok a → Q a) : ∃ a, x = .ok a ∧ Q a := by
  obtain ⟨a, ha⟩ := exists_eq_ok h
  exact ⟨a, ha, hQ a ha⟩

/-- What holds of an outcome holds of the only one there is. -/
@[elab_as_elim]
theorem of_ok {x : Except ε α} {a : α} {P : α → Prop} (ha : x = .ok a) (h : ∃ a, x = .ok a ∧ P a) :
    P a := by
  obtain ⟨b, hb, h⟩ := h
  cases ha.symm.trans hb
  exact h

/-- What each step of a fold keeps, the whole fold keeps. -/
theorem foldlM_induct {Q : β → Prop} {f : β → α → Except ε β} :
    ∀ {as : List α} {b b' : β}, (∀ a ∈ as, ∀ b b', Q b → f b a = .ok b' → Q b') → Q b →
      as.foldlM f b = .ok b' → Q b'
  | [], _, _, _, hb, h => by
    cases h
    exact hb
  | a :: as, b, _, hf, hb, h => by
    rw [foldlM_cons] at h
    obtain ⟨b₁, hb₁, h⟩ := except_bind_eq_ok.1 h
    exact foldlM_induct (fun x hx => hf x (mem_cons_of_mem a hx))
      (hf a mem_cons_self b b₁ hb hb₁) h

end RowAwk
