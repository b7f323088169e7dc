import Mathlib.Data.List.Basic

/-! Programs with state that may stop with an error, and the simulation of one by another. -/
namespace LibAtrinik.StatePrograms

variable {ε δ σ τ α β : Type}

section Steps

variable {x : EStateM ε σ α} {f : α → EStateM ε σ β} {s s' : σ}

/-- The state that is left behind, also after an error. -/
def left : EStateM.Result ε σ α → σ
  | .ok _ s => s
  | .error _ s => s

theorem get_bind (f : σ → EStateM ε σ α) (s : σ) : (get >>= f) s = f s s := rfl

theorem bind_ok {a : α} (h : x s = .ok a s') : (x >>= f) s = f a s' := by
  change EStateM.bind x f s = _
  rw [EStateM.bind, h]

theorem bind_error {e : ε} (h : x s = .error e s') : (x >>= f) s = .error e s' := by
  change EStateM.bind x f s = _
  rw [EStateM.bind, h]

end Steps

/-- The one program ends as the other does: with the same answer, or with the error for its error,
and in related states. -/
inductive EndsLike (error : δ → ε) (rel : σ → τ → Prop) :
    EStateM.Result ε σ α → EStateM.Result δ τ α → Prop
  | ok (a : α) {s : σ} {t : τ} (h : rel s t) : EndsLike error rel (.ok a s) (.ok a t)
  | error (e : δ) {s : σ} {t : τ} (h : rel s t) :
      EndsLike error rel (.error (error e) s) (.error e t)

/-- From related states the one program ends as the other does. -/
def Simulates (error : δ → ε) (rel : σ → τ → Prop) (x : EStateM ε σ α) (y : EStateM δ τ α) : Prop :=
  ∀ s t, rel s t → EndsLike error rel (x s) (y t)

section Rules

variable {error : δ → ε} {rel rel' : σ → τ → Prop}

theorem EndsLike.mono {r : EStateM.Result ε σ α} {r' : EStateM.Result δ τ α}
    (h : EndsLike error rel r r') (hrel : ∀ s t, rel s t → rel' s t) : EndsLike error rel' r r' := by
  cases h with
  | ok a h => exact .ok a (hrel _ _ h)
  | error e h => exact .error e (hrel _ _ h)

/-- One step after another, where the second may come back in other states than it begins with. -/
theorem EndsLike.bind {x : EStateM ε σ α} {y : EStateM δ τ α} {f : α → EStateM ε σ β}
    {g : α → EStateM δ τ β} {s : σ} {t : τ} (h : EndsLike error rel (x s) (y t))
    (hnext : ∀ a s t, rel s t → EndsLike error rel' (f a s) (g a t))
    (hrel : ∀ s t, rel s t → rel' s t) : EndsLike error rel' ((x >>= f) s) ((y >>= g) t) := by
  generalize hx : x s = r, hy : y t = r' at h
  cases h with
  | ok a h =>
    rw [bind_ok hx, bind_ok hy]
    exact hnext a _ _ h
  | error e h =>
    rw [bind_error hx, bind_error hy]
    exact .error e (hrel _ _ h)

theorem simulates_pure (a : α) :
    Simulates error rel (pure a : EStateM ε σ α) (pure a : EStateM δ τ α) := fun _ _ h => .ok a h

theorem simulates_throw (e : δ) :
    Simulates error rel (throw (error e) : EStateM ε σ α) (throw e : EStateM δ τ α) :=
  fun _ _ h => .error e h

theorem Simulates.bind {x : EStateM ε σ α} {y : EStateM δ τ α} {f : α → EStateM ε σ β}
    {g : α → EStateM δ τ β} (h : Simulates error rel x y)
    (hnext : ∀ a, Simulates error rel (f a) (g a)) :
    Simulates error rel (x >>= f) (y >>= g) :=
  fun s t hrel => (h s t hrel).bind (fun a s t => hnext a s t) fun _ _ h => h

end Rules

end LibAtrinik.StatePrograms
