import Mathlib

/-!
# Programs that may stop at a fault

A small program logic for code that runs over a state and can stop: a failed assertion, an access
outside an object, a loop that never ends. A program is a state transformer into `Except`, and
everything said about it goes through one judgement,

  `Returns m s a s'` — started in `s`, the program `m` returns `a` in the state `s'`.

A program that stops returns nothing, so a fact about what it returns says nothing about the states
in which it stops; that it does return is stated as such, by exhibiting the value and the state.

The equations `returns_bind`, `returns_pure`, … turn the judgement for a composite program into the
judgements for its parts. `Within R m` packages the frame arguments: every completed run of `m`
relates its first and last state by `R`, which composes as soon as `R` is reflexive and transitive.
-/

namespace Program

variable {ε σ α β γ : Type}

/-- Started in `s`, the program returns `a` and leaves the state `s'`. -/
def Returns (m : StateT σ (Except ε) α) (s : σ) (a : α) (s' : σ) : Prop :=
  m s = .ok (a, s')

theorem Returns.unique {m : StateT σ (Except ε) α} {s s₁ s₂ : σ} {a₁ a₂ : α}
    (h₁ : Returns m s a₁ s₁) (h₂ : Returns m s a₂ s₂) : a₁ = a₂ ∧ s₁ = s₂ := by
  have h : (Except.ok (a₁, s₁) : Except ε (α × σ)) = .ok (a₂, s₂) := h₁.symm.trans h₂
  simpa using h

/-- A program that is run shows what it returns. -/
theorem exists_returns {m : StateT σ (Except ε) α} {s : σ} {a : α}
    (h : (m s).toOption.map Prod.fst = some a) : ∃ s', Returns m s a s' := by
  cases hm : m s with
  | error e =>
    rw [hm] at h
    cases h
  | ok p =>
    rw [hm] at h
    obtain rfl := Option.some.inj h
    exact ⟨p.2, hm⟩

/-- A program that is run and stops returns nothing. -/
theorem not_returns_of_isNone {m : StateT σ (Except ε) α} {s s' : σ} {a : α}
    (h : (m s).toOption.isNone = true) : ¬Returns m s a s' := by
  intro hr
  rw [hr] at h
  cases h

/-! ## The equations -/

@[simp] theorem returns_pure {s s' : σ} {a b : α} :
    Returns (pure a : StateT σ (Except ε) α) s b s' ↔ b = a ∧ s' = s := by
  constructor
  · intro h
    have h' : (Except.ok (a, s) : Except ε (α × σ)) = .ok (b, s') := h
    simp only [Except.ok.injEq, Prod.mk.injEq] at h'
    exact ⟨h'.1.symm, h'.2.symm⟩
  · rintro ⟨rfl, rfl⟩
    rfl

@[simp] theorem returns_bind {m : StateT σ (Except ε) α} {f : α → StateT σ (Except ε) β}
    {s s' : σ} {b : β} :
    Returns (m >>= f) s b s' ↔ ∃ a t, Returns m s a t ∧ Returns (f a) t b s' := by
  have hrun : (m >>= f) s = (m s >>= fun p ↦ f p.1 p.2) := rfl
  rw [Returns, hrun]
  cases hm : m s with
  | error e =>
    constructor
    · intro h
      cases h
    · rintro ⟨a, t, h, -⟩
      rw [Returns, hm] at h
      cases h
  | ok p =>
    constructor
    · intro h
      exact ⟨p.1, p.2, hm, h⟩
    · rintro ⟨a, t, h, h'⟩
      rw [Returns, hm, Except.ok.injEq] at h
      subst h
      exact h'

/-- What a composite program returns, once its first part is known. -/
theorem Returns.bind_iff {m : StateT σ (Except ε) α} {f : α → StateT σ (Except ε) β}
    {s t s' : σ} {a : α} {b : β} (h : Returns m s a t) :
    Returns (m >>= f) s b s' ↔ Returns (f a) t b s' := by
  rw [returns_bind]
  constructor
  · rintro ⟨a', t', h', hf⟩
    obtain ⟨rfl, rfl⟩ := h.unique h'
    exact hf
  · exact fun hf ↦ ⟨a, t, h, hf⟩

/-- A composite program runs on from where its first part returns. -/
theorem Returns.bind_run {m : StateT σ (Except ε) α} {f : α → StateT σ (Except ε) β}
    {s t : σ} {a : α} (h : Returns m s a t) : (m >>= f) s = f a t := by
  have hrun : (m >>= f) s = (m s >>= fun p ↦ f p.1 p.2) := rfl
  rw [hrun, show m s = .ok (a, t) from h]
  rfl

/-- A composite program returns if its first part does, and from there the rest. -/
theorem exists_returns_bind {m : StateT σ (Except ε) α} {f : α → StateT σ (Except ε) β}
    {s t : σ} {a : α} {b : β} (h : Returns m s a t) (h' : ∃ s', Returns (f a) t b s') :
    ∃ s', Returns (m >>= f) s b s' := by
  obtain ⟨s', h'⟩ := h'
  exact ⟨s', returns_bind.mpr ⟨a, t, h, h'⟩⟩

@[simp] theorem returns_map {m : StateT σ (Except ε) α} {f : α → β} {s s' : σ} {b : β} :
    Returns (f <$> m) s b s' ↔ ∃ a, Returns m s a s' ∧ b = f a := by
  rw [← bind_pure_comp, returns_bind]
  constructor
  · rintro ⟨a, t, h, h'⟩
    obtain ⟨rfl, rfl⟩ := returns_pure.mp h'
    exact ⟨a, h, rfl⟩
  · rintro ⟨a, h, rfl⟩
    exact ⟨a, s', h, returns_pure.mpr ⟨rfl, rfl⟩⟩

@[simp] theorem returns_get {s s' a : σ} :
    Returns (get : StateT σ (Except ε) σ) s a s' ↔ a = s ∧ s' = s := by
  have hrun : (get : StateT σ (Except ε) σ) s = .ok (s, s) := rfl
  rw [Returns, hrun, Except.ok.injEq, Prod.mk.injEq]
  exact ⟨fun h ↦ ⟨h.1.symm, h.2.symm⟩, fun h ↦ ⟨h.1.symm, h.2.symm⟩⟩

@[simp] theorem returns_modify {f : σ → σ} {s s' : σ} {u : PUnit} :
    Returns (modify f : StateT σ (Except ε) PUnit) s u s' ↔ s' = f s := by
  have hrun : (modify f : StateT σ (Except ε) PUnit) s = .ok (PUnit.unit, f s) := rfl
  rw [Returns, hrun, Except.ok.injEq, Prod.mk.injEq]
  exact ⟨fun h ↦ h.2.symm, fun h ↦ ⟨rfl, h.symm⟩⟩

@[simp] theorem returns_throw {e : ε} {s s' : σ} {a : α} :
    ¬Returns (throw e : StateT σ (Except ε) α) s a s' := by
  intro h
  have hrun : (throw e : StateT σ (Except ε) α) s = .error e := rfl
  rw [Returns, hrun] at h
  cases h

@[simp] theorem returns_ite {p : Prop} [Decidable p] {m₁ m₂ : StateT σ (Except ε) α}
    {s s' : σ} {a : α} :
    Returns (if p then m₁ else m₂) s a s' ↔
      (p ∧ Returns m₁ s a s') ∨ (¬p ∧ Returns m₂ s a s') := by
  by_cases hp : p <;> simp [hp]

/-! ## Checks -/

/-- Continue only if `p` holds, otherwise stop with the fault `e`. -/
def check (e : ε) (p : Prop) [Decidable p] : StateT σ (Except ε) PUnit :=
  if p then pure PUnit.unit else throw e

@[simp] theorem returns_check {e : ε} {p : Prop} [Decidable p] {s s' : σ} {u : PUnit} :
    Returns (check e p) s u s' ↔ p ∧ s' = s := by
  simp only [check, returns_ite, returns_pure, returns_throw, and_false, or_false, true_and]

/-! ## Leading steps

A step that is deterministic and returns in a known state is taken without naming that state. -/

@[simp high] theorem returns_pure_bind {a : α} {f : α → StateT σ (Except ε) β} {s s' : σ} {b : β} :
    Returns ((pure a : StateT σ (Except ε) α) >>= f) s b s' ↔ Returns (f a) s b s' := Iff.rfl

@[simp high] theorem returns_get_bind {f : σ → StateT σ (Except ε) β} {s s' : σ} {b : β} :
    Returns ((get : StateT σ (Except ε) σ) >>= f) s b s' ↔ Returns (f s) s b s' := Iff.rfl

@[simp high] theorem returns_modify_bind {g : σ → σ} {f : PUnit → StateT σ (Except ε) β}
    {s s' : σ} {b : β} :
    Returns ((modify g : StateT σ (Except ε) PUnit) >>= f) s b s' ↔
      Returns (f PUnit.unit) (g s) b s' := Iff.rfl

@[simp high] theorem returns_throw_bind {e : ε} {f : α → StateT σ (Except ε) β} {s s' : σ} {b : β} :
    ¬Returns ((throw e : StateT σ (Except ε) α) >>= f) s b s' := by
  simp

@[simp high] theorem returns_check_bind {e : ε} {p : Prop} [Decidable p]
    {f : PUnit → StateT σ (Except ε) β} {s s' : σ} {b : β} :
    Returns (check e p >>= f) s b s' ↔ p ∧ Returns (f PUnit.unit) s b s' := by
  rw [returns_bind]
  constructor
  · rintro ⟨u, t, h, h'⟩
    obtain ⟨hp, rfl⟩ := returns_check.mp h
    exact ⟨hp, h'⟩
  · rintro ⟨hp, h⟩
    exact ⟨PUnit.unit, s, returns_check.mpr ⟨hp, rfl⟩, h⟩

/-! ## Runs

What a composite program does, whether it returns or stops. -/

/-- A composite program stops where its first part stops. -/
theorem bind_stop {m : StateT σ (Except ε) α} {f : α → StateT σ (Except ε) β} {s : σ} {e : ε}
    (h : m s = .error e) : (m >>= f) s = .error e := by
  have hrun : (m >>= f) s = (m s >>= fun p ↦ f p.1 p.2) := rfl
  rw [hrun, h]
  rfl

theorem get_run {f : σ → StateT σ (Except ε) β} {s : σ} :
    ((get : StateT σ (Except ε) σ) >>= f) s = f s s := rfl

theorem modify_run {g : σ → σ} {f : PUnit → StateT σ (Except ε) β} {s : σ} :
    ((modify g : StateT σ (Except ε) PUnit) >>= f) s = f PUnit.unit (g s) := rfl

theorem check_run {e : ε} {p : Prop} [Decidable p] {f : PUnit → StateT σ (Except ε) β} {s : σ}
    (h : p) : (check e p >>= f) s = f PUnit.unit s :=
  (returns_check.mpr ⟨h, rfl⟩).bind_run

theorem check_stop {e : ε} {p : Prop} [Decidable p] {f : PUnit → StateT σ (Except ε) β} {s : σ}
    (h : ¬p) : (check e p >>= f) s = .error e := by
  refine bind_stop ?_
  rw [check, if_neg h]
  rfl

/-! ## Frames -/

/-- Every completed run of `m` relates its first and its last state by `R`. -/
def Within (R : σ → σ → Prop) (m : StateT σ (Except ε) α) : Prop :=
  ∀ s a s', Returns m s a s' → R s s'

namespace Within

variable {R : σ → σ → Prop}

theorem mono {R' : σ → σ → Prop} {m : StateT σ (Except ε) α} (h : Within R m)
    (hR : ∀ s s', R s s' → R' s s') : Within R' m :=
  fun s a s' hret ↦ hR s s' (h s a s' hret)

theorem pure [Std.Refl R] (a : α) : Within R (pure a : StateT σ (Except ε) α) := by
  intro s b s' h
  obtain ⟨-, rfl⟩ := returns_pure.mp h
  exact refl s'

theorem get [Std.Refl R] : Within R (get : StateT σ (Except ε) σ) := by
  intro s b s' h
  obtain ⟨-, rfl⟩ := returns_get.mp h
  exact refl s'

theorem throw (e : ε) : Within R (throw e : StateT σ (Except ε) α) :=
  fun _ _ _ h ↦ absurd h returns_throw

theorem check [Std.Refl R] (e : ε) (p : Prop) [Decidable p] :
    Within R (check e p : StateT σ (Except ε) PUnit) := by
  intro s u s' h
  obtain ⟨-, rfl⟩ := returns_check.mp h
  exact refl s'

theorem modify {f : σ → σ} (hf : ∀ s, R s (f s)) :
    Within R (modify f : StateT σ (Except ε) PUnit) := by
  intro s u s' h
  rw [returns_modify.mp h]
  exact hf s

theorem bind [IsTrans σ R] {m : StateT σ (Except ε) α} {f : α → StateT σ (Except ε) β}
    (hm : Within R m) (hf : ∀ a, Within R (f a)) : Within R (m >>= f) := by
  intro s b s' h
  obtain ⟨a, t, h₁, h₂⟩ := returns_bind.mp h
  exact IsTrans.trans _ _ _ (hm s a t h₁) (hf a t b s' h₂)

/-- The two parts of a program may keep to different relations. -/
theorem comp {R₁ R₂ : σ → σ → Prop} {m : StateT σ (Except ε) α} {f : α → StateT σ (Except ε) β}
    (hR : ∀ s t s', R₁ s t → R₂ t s' → R s s') (hm : Within R₁ m) (hf : ∀ a, Within R₂ (f a)) :
    Within R (m >>= f) := by
  intro s b s' h
  obtain ⟨a, t, h₁, h₂⟩ := returns_bind.mp h
  exact hR s t s' (hm s a t h₁) (hf a t b s' h₂)

theorem ite {p : Prop} [Decidable p] {m₁ m₂ : StateT σ (Except ε) α}
    (h₁ : Within R m₁) (h₂ : Within R m₂) : Within R (if p then m₁ else m₂) := by
  by_cases hp : p <;> simpa [hp]

end Within

end Program
