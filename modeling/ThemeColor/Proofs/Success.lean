import ThemeColor.Sheet.Convert

/-!
# Successful runs

Recoloring and converting run in a monad that may fail, takes placeholders and records warnings.
`Gives x s a s'` says that such a computation succeeds; the lemmas below take a successful run of a
composed computation apart into successful runs of its parts, so that no proof unfolds the monad.
-/

namespace ThemeColor

variable {ε ε' σ τ α β : Type}

/-- The computation `x`, started in the state `s`, succeeds with the value `a` and leaves the state
`s'`. -/
def Gives (x : ExceptT ε (StateT σ (StateM τ)) α) (s : σ × τ) (a : α) (s' : σ × τ) : Prop :=
  (x.run.run s.1).run s.2 = ((.ok a, s'.1), s'.2)

/-- A given outcome succeeds when it is a success, and touches no state. -/
theorem gives_mk_pure_iff {r : Except ε α} {a : α} {s s' : σ × τ} :
    Gives (ExceptT.mk (pure r) : ExceptT ε (StateT σ (StateM τ)) α) s a s' ↔
      r = .ok a ∧ s = s' := by
  constructor
  · intro h
    have h : ((r, s.1), s.2) = ((Except.ok a, s'.1), s'.2) := h
    simp only [Prod.mk.injEq] at h
    exact ⟨h.1.1, Prod.ext h.1.2 h.2⟩
  · rintro ⟨rfl, rfl⟩
    rfl

theorem gives_pure_iff {a b : α} {s s' : σ × τ} :
    Gives (pure a : ExceptT ε (StateT σ (StateM τ)) α) s b s' ↔ a = b ∧ s = s' := by
  have h : Gives (pure a : ExceptT ε (StateT σ (StateM τ)) α) s b s' ↔
      Except.ok a = (Except.ok b : Except ε α) ∧ s = s' := gives_mk_pure_iff
  rw [h, Except.ok.injEq]

theorem not_gives_throw {e : ε} {a : α} {s s' : σ × τ} :
    ¬ Gives (throw e : ExceptT ε (StateT σ (StateM τ)) α) s a s' := by
  intro h
  cases (gives_mk_pure_iff.mp h).1

/-- A computation that only records succeeds from what was recorded before. -/
theorem gives_lift_iff {x : StateM τ (Except ε α)} {a : α} {s s' : σ × τ} :
    Gives (ExceptT.mk (liftM x) : ExceptT ε (StateT σ (StateM τ)) α) s a s' ↔
      x.run s.2 = (.ok a, s'.2) ∧ s.1 = s'.1 := by
  have hrun : ((ExceptT.mk (liftM x) : ExceptT ε (StateT σ (StateM τ)) α).run.run s.1).run s.2 =
      (((x.run s.2).1, s.1), (x.run s.2).2) := rfl
  unfold Gives
  rw [hrun]
  obtain ⟨s₁, s₂⟩ := s
  obtain ⟨t₁, t₂⟩ := s'
  rcases x.run s₂ with ⟨r, w⟩
  constructor
  · intro h
    cases h
    exact ⟨rfl, rfl⟩
  · rintro ⟨h, rfl⟩
    cases h
    rfl

theorem gives_modifyGet_iff {f : σ → α × σ} {a : α} {s s' : σ × τ} :
    Gives (modifyGet f : ExceptT ε (StateT σ (StateM τ)) α) s a s' ↔
      f s.1 = (a, s'.1) ∧ s.2 = s'.2 := by
  have hrun : ((modifyGet f : ExceptT ε (StateT σ (StateM τ)) α).run.run s.1).run s.2 =
      ((.ok (f s.1).1, (f s.1).2), s.2) := rfl
  unfold Gives
  rw [hrun, Prod.mk.injEq, Prod.mk.injEq, Except.ok.injEq, Prod.ext_iff]

/-- Two computations in a row succeed when the first one does and the second one does from where the
first one stopped. -/
theorem gives_bind_iff {x : ExceptT ε (StateT σ (StateM τ)) α}
    {f : α → ExceptT ε (StateT σ (StateM τ)) β} {s s' : σ × τ} {b : β} :
    Gives (x >>= f) s b s' ↔ ∃ a mid, Gives x s a mid ∧ Gives (f a) mid b s' := by
  have hrun : ((x >>= f).run.run s.1).run s.2 =
      match (x.run.run s.1).run s.2 with
      | ((.ok a, s₁), s₂) => ((f a).run.run s₁).run s₂
      | ((.error e, s₁), s₂) => ((.error e, s₁), s₂) := by
    -- Both sides run the first step and then look at its outcome.
    change (match (x.run.run s.1).run s.2 with
      | (r, s₂) => ((ExceptT.bindCont f r.1 : StateT σ (StateM τ) _).run r.2).run s₂) = _
    rcases (x.run.run s.1).run s.2 with ⟨⟨r, s₁⟩, s₂⟩
    cases r <;> rfl
  unfold Gives
  rw [hrun]
  rcases (x.run.run s.1).run s.2 with ⟨⟨r, s₁⟩, s₂⟩
  constructor
  · intro h
    cases r with
    | ok a => exact ⟨a, (s₁, s₂), rfl, h⟩
    | error e => cases h
  · rintro ⟨a, ⟨m₁, m₂⟩, hx, hf⟩
    cases hx
    exact hf

theorem gives_map_iff {x : ExceptT ε (StateT σ (StateM τ)) α} {f : α → β} {s s' : σ × τ} {b : β} :
    Gives (f <$> x) s b s' ↔ ∃ a, Gives x s a s' ∧ f a = b := by
  rw [map_eq_pure_bind, gives_bind_iff]
  constructor
  · rintro ⟨a, mid, hx, hpure⟩
    obtain ⟨rfl, rfl⟩ := gives_pure_iff.mp hpure
    exact ⟨a, hx, rfl⟩
  · rintro ⟨a, hx, rfl⟩
    exact ⟨a, s', hx, gives_pure_iff.mpr ⟨rfl, rfl⟩⟩

theorem gives_mapM_nil_iff {f : α → ExceptT ε (StateT σ (StateM τ)) β} {s s' : σ × τ}
    {bs : List β} : Gives ([].mapM f) s bs s' ↔ bs = [] ∧ s = s' := by
  rw [List.mapM_nil, gives_pure_iff, eq_comm]

theorem gives_mapM_cons_iff {f : α → ExceptT ε (StateT σ (StateM τ)) β} {a : α} {as : List α}
    {s s' : σ × τ} {bs : List β} :
    Gives ((a :: as).mapM f) s bs s' ↔
      ∃ b more mid, bs = b :: more ∧ Gives (f a) s b mid ∧ Gives (as.mapM f) mid more s' := by
  rw [List.mapM_cons, gives_bind_iff]
  constructor
  · rintro ⟨b, mid, hb, hrest⟩
    obtain ⟨more, last, hmore, hpure⟩ := gives_bind_iff.mp hrest
    obtain ⟨rfl, rfl⟩ := gives_pure_iff.mp hpure
    exact ⟨b, more, mid, rfl, hb, hmore⟩
  · rintro ⟨b, more, mid, rfl, hb, hmore⟩
    exact ⟨b, mid, hb, gives_bind_iff.mpr ⟨more, s', hmore, gives_pure_iff.mpr ⟨rfl, rfl⟩⟩⟩

namespace Sheet

/-- Reporting a failure differently changes no success. -/
theorem gives_reporting_iff {f : ColorError → ConvertError}
    {step : RecolorM PlaceholderCounter α} {s s' : PlaceholderCounter × List Warning} {a : α} :
    Gives (reporting f step) s a s' ↔ Gives step s a s' := by
  unfold Gives
  -- Only the outcome of the step is touched, and a success is left alone.
  change (match (step.run.run s.1).run s.2 with
    | ((r, s₁), s₂) => ((Except.mapError f r, s₁), s₂)) = _ ↔ _
  rcases (step.run.run s.1).run s.2 with ⟨⟨r, s₁⟩, s₂⟩
  cases r with
  | ok b =>
    constructor
    · intro h
      cases h
      rfl
    · intro h
      cases h
      rfl
  | error e =>
    constructor
    · intro h
      cases h
    · intro h
      cases h

end Sheet

end ThemeColor
