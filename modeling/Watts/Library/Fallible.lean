import Mathlib.Data.List.Basic
import Mathlib.Tactic.Common

/-! Computations that may stop: taking a successful sequence apart, and invariants of a loop over a
list that stops at the first failure. -/

namespace Fallible

universe u v

variable {ε : Type u} {α β σ : Type v}

theorem bind_eq_ok {x : Except ε α} {f : α → Except ε β} {b : β} :
    (x >>= f) = .ok b ↔ ∃ a, x = .ok a ∧ f a = .ok b := by
  cases x with
  | error e => simp [bind, Except.bind]
  | ok a => simp [bind, Except.bind]

theorem ok_bind (a : α) (f : α → Except ε β) : ((.ok a : Except ε α) >>= f) = f a :=
  rfl

/-- A summary of a result shows that the computation returns. -/
theorem exists_ok_of_toOption {γ : Type*} {x : Except ε α} {f : α → γ} {c : γ}
    (h : x.toOption.map f = some c) : ∃ a, x = .ok a ∧ f a = c := by
  cases x with
  | error e => cases h
  | ok a => exact ⟨a, rfl, Option.some.inj h⟩

/-- Why a computation stops. -/
def error? : Except ε α → Option ε
  | .ok _ => none
  | .error e => some e

theorem error?_eq_some {x : Except ε α} {e : ε} : error? x = some e ↔ x = .error e := by
  cases x <;> simp [error?]

theorem foldlM_cons_eq_ok {f : σ → α → Except ε σ} {a : α} {as : List α} {s t : σ} :
    (a :: as).foldlM f s = .ok t ↔ ∃ s', f s a = .ok s' ∧ as.foldlM f s' = .ok t := by
  rw [List.foldlM_cons, bind_eq_ok]

theorem foldlM_nil_eq_ok {f : σ → α → Except ε σ} {s t : σ} :
    ([] : List α).foldlM f s = .ok t ↔ s = t := by
  rw [List.foldlM_nil]
  exact ⟨Except.ok.inj, congrArg _⟩

theorem bind_eq_error {x : Except ε α} {f : α → Except ε β} {e : ε} :
    (x >>= f) = .error e ↔ x = .error e ∨ ∃ a, x = .ok a ∧ f a = .error e := by
  cases x with
  | error e' => simp [bind, Except.bind]
  | ok a => simp [bind, Except.bind]

/-- A loop over a list stops at one of its elements, in the state that the ones before it lead to. -/
theorem foldlM_eq_error {f : σ → α → Except ε σ} {as : List α} {s : σ} {e : ε} :
    as.foldlM f s = .error e ↔
      ∃ done a rest s', as = done ++ a :: rest ∧ done.foldlM f s = .ok s' ∧ f s' a = .error e := by
  constructor
  · intro h
    induction as generalizing s with
    | nil => cases h
    | cons a as ih =>
        rw [List.foldlM_cons, bind_eq_error] at h
        rcases h with h | ⟨s', hs', h⟩
        · exact ⟨[], a, as, s, rfl, rfl, h⟩
        · obtain ⟨done, b, rest, t, rfl, ht, hb⟩ := ih h
          exact ⟨a :: done, b, rest, t, rfl, foldlM_cons_eq_ok.mpr ⟨s', hs', ht⟩, hb⟩
  · rintro ⟨done, a, rest, s', rfl, hdone, ha⟩
    rw [List.foldlM_append, bind_eq_error]
    exact .inr ⟨s', hdone, by rw [List.foldlM_cons, ha]; rfl⟩

/-- A loop over a list that returns passes each element. -/
theorem foldlM_step_ok {f : σ → α → Except ε σ} {as : List α} {s t : σ} (h : as.foldlM f s = .ok t) {a : α}
    (ha : a ∈ as) : ∃ s₁ s₂, f s₁ a = .ok s₂ := by
  induction as generalizing s with
  | nil => cases ha
  | cons b as ih =>
      obtain ⟨s', hs', h⟩ := foldlM_cons_eq_ok.mp h
      rcases List.mem_cons.mp ha with rfl | ha
      · exact ⟨s, s', hs'⟩
      · exact ih h ha

/-- Every failure of the computation is one of `P`. -/
def FailsIn (P : ε → Prop) (x : Except ε α) : Prop :=
  ∀ e, x = .error e → P e

namespace FailsIn

variable {P : ε → Prop}

theorem ok (a : α) : FailsIn P (.ok a : Except ε α) := by
  intro e h
  cases h

theorem error {e : ε} (h : P e) : FailsIn P (.error e : Except ε α) := by
  intro e' h'
  cases h'
  exact h

theorem bind {x : Except ε α} {f : α → Except ε β} (hx : FailsIn P x) (hf : ∀ a, FailsIn P (f a)) :
    FailsIn P (x >>= f) := by
  intro e h
  rcases bind_eq_error.mp h with h | ⟨a, _, h⟩
  · exact hx e h
  · exact hf a e h

theorem foldlM {f : σ → α → Except ε σ} {as : List α} (hf : ∀ a ∈ as, ∀ s, FailsIn P (f s a)) (s : σ) :
    FailsIn P (as.foldlM f s) := by
  intro e h
  obtain ⟨done, a, rest, s', rfl, _, h⟩ := foldlM_eq_error.mp h
  exact hf a (List.mem_append_right _ (.head _)) s' e h

theorem forM {f : α → Except ε PUnit} {as : List α} (hf : ∀ a ∈ as, FailsIn P (f a)) : FailsIn P (as.forM f) := by
  induction as with
  | nil => exact ok _
  | cons a as ih => exact bind (hf a (.head _)) fun _ => ih fun b hb => hf b (.tail _ hb)

theorem of_ok {x : Except ε α} (h : ∃ a, x = .ok a) : FailsIn P x := by
  obtain ⟨a, rfl⟩ := h
  exact ok a

theorem mono {Q : ε → Prop} {x : Except ε α} (h : FailsIn P x) (hPQ : ∀ e, P e → Q e) : FailsIn Q x :=
  fun e he => hPQ e (h e he)

/-- The second computation may rely on the first having returned. -/
theorem bind_of {x : Except ε α} {f : α → Except ε β} (hx : FailsIn P x) (hf : ∀ a, x = .ok a → FailsIn P (f a)) :
    FailsIn P (x >>= f) := by
  intro e h
  rcases bind_eq_error.mp h with h | ⟨a, ha, h⟩
  · exact hx e h
  · exact hf a ha e h

/-- A loop over a list whose body relies on an invariant. -/
theorem foldlM_of {f : σ → α → Except ε σ} {as : List α} (I : σ → Prop)
    (hf : ∀ a ∈ as, ∀ s, I s → FailsIn P (f s a)) (hstep : ∀ a ∈ as, ∀ s s', I s → f s a = .ok s' → I s') {s : σ}
    (hs : I s) : FailsIn P (as.foldlM f s) := by
  induction as generalizing s with
  | nil => exact ok s
  | cons a as ih =>
      rw [List.foldlM_cons]
      refine bind_of (hf a (.head _) s hs) fun s' hs' => ?_
      exact ih (fun b hb => hf b (.tail _ hb)) (fun b hb => hstep b (.tail _ hb)) (hstep a (.head _) s s' hs hs')

end FailsIn

/-- Every result of the computation is one of `Q`. -/
def Returns (Q : α → Prop) (x : Except ε α) : Prop :=
  ∀ a, x = .ok a → Q a

namespace Returns

variable {Q : α → Prop} {R : β → Prop}

theorem ok {a : α} (h : Q a) : Returns Q (.ok a : Except ε α) := by
  intro b hb
  cases hb
  exact h

theorem error (e : ε) : Returns Q (.error e : Except ε α) := by
  intro a ha
  cases ha

theorem bind {x : Except ε α} {f : α → Except ε β} (hx : Returns Q x) (hf : ∀ a, Q a → Returns R (f a)) :
    Returns R (x >>= f) := by
  intro b hb
  obtain ⟨a, ha, hb⟩ := bind_eq_ok.mp hb
  exact hf a (hx a ha) b hb

/-- Whatever the first computation returns. -/
theorem bind_any {x : Except ε α} {f : α → Except ε β} (hf : ∀ a, Returns R (f a)) : Returns R (x >>= f) :=
  bind (Q := fun _ => True) (fun _ _ => trivial) fun a _ => hf a

end Returns

/-- The computation fails only as `P` says and returns only what `Q` says. -/
structure Yields (P : ε → Prop) (Q : α → Prop) (x : Except ε α) : Prop where
  fails : FailsIn P x
  returns : Returns Q x

namespace Yields

variable {P : ε → Prop} {Q : α → Prop} {R : β → Prop}

theorem ok {a : α} (h : Q a) : Yields P Q (.ok a : Except ε α) :=
  ⟨.ok a, .ok h⟩

theorem error {e : ε} (h : P e) : Yields P Q (.error e : Except ε α) :=
  ⟨.error h, .error e⟩

theorem mono {P' : ε → Prop} {Q' : α → Prop} {x : Except ε α} (h : Yields P Q x) (hP : ∀ e, P e → P' e)
    (hQ : ∀ a, Q a → Q' a) : Yields P' Q' x :=
  ⟨h.fails.mono hP, fun a ha => hQ a (h.returns a ha)⟩

theorem bind {x : Except ε α} {f : α → Except ε β} (hx : Yields P Q x) (hf : ∀ a, Q a → Yields P R (f a)) :
    Yields P R (x >>= f) :=
  ⟨.bind_of hx.fails fun a ha => (hf a (hx.returns a ha)).fails,
    .bind hx.returns fun a ha => (hf a ha).returns⟩

/-- The invariant rule of a loop over a list. -/
theorem foldlM {f : σ → α → Except ε σ} {as : List α} {I : σ → Prop} (hf : ∀ a ∈ as, ∀ s, I s → Yields P I (f s a))
    {s : σ} (hs : I s) : Yields P I (as.foldlM f s) := by
  induction as generalizing s with
  | nil => exact ok hs
  | cons a as ih =>
      rw [List.foldlM_cons]
      exact bind (hf a (.head _) s hs) fun s' hs' => ih (fun b hb => hf b (.tail _ hb)) hs'

end Yields

/-- Both computations return, with related results, or both stop with the same failure. -/
inductive Agree (R : α → β → Prop) : Except ε α → Except ε β → Prop
  | ok {a : α} {b : β} (h : R a b) : Agree R (.ok a) (.ok b)
  | error (e : ε) : Agree R (.error e) (.error e)

namespace Agree

variable {γ δ τ : Type v} {R : α → β → Prop} {S : γ → δ → Prop}

theorem bind {x : Except ε α} {y : Except ε β} {f : α → Except ε γ} {g : β → Except ε δ} (hxy : Agree R x y)
    (hfg : ∀ a b, R a b → Agree S (f a) (g b)) : Agree S (x >>= f) (y >>= g) := by
  cases hxy with
  | ok h => exact hfg _ _ h
  | error e => exact .error e

/-- The same computation before two others. -/
theorem bind_left {x : Except ε α} {f : α → Except ε γ} {g : α → Except ε δ}
    (hfg : ∀ a, Agree S (f a) (g a)) : Agree S (x >>= f) (x >>= g) := by
  cases x with
  | error e => exact .error e
  | ok a => exact hfg a

/-- Two loops over one list whose bodies agree. -/
theorem foldlM {R : σ → τ → Prop} {f : σ → α → Except ε σ} {g : τ → α → Except ε τ} {as : List α}
    (hfg : ∀ a ∈ as, ∀ s t, R s t → Agree R (f s a) (g t a)) {s : σ} {t : τ} (h : R s t) :
    Agree R (as.foldlM f s) (as.foldlM g t) := by
  induction as generalizing s t with
  | nil => exact .ok h
  | cons a as ih =>
      rw [List.foldlM_cons, List.foldlM_cons]
      exact (hfg a (.head _) s t h).bind fun _ _ h => ih (fun b hb => hfg b (.tail _ hb)) h

theorem exists_right {x : Except ε α} {y : Except ε β} (hxy : Agree R x y) {a : α} (hx : x = .ok a) :
    ∃ b, y = .ok b ∧ R a b := by
  cases hxy with
  | ok h =>
      cases hx
      exact ⟨_, rfl, h⟩
  | error e => cases hx

theorem exists_left {x : Except ε α} {y : Except ε β} (hxy : Agree R x y) {b : β} (hy : y = .ok b) :
    ∃ a, x = .ok a ∧ R a b := by
  cases hxy with
  | ok h =>
      cases hy
      exact ⟨_, rfl, h⟩
  | error e => cases hy

end Agree

/-- **The invariant rule of a loop over a list**: what the body preserves, for what it has already
passed, holds of the result. -/
theorem foldlM_invariant {f : σ → α → Except ε σ} (P : List α → σ → Prop)
    (hstep : ∀ done a s s', P done s → f s a = .ok s' → P (done ++ [a]) s') {as : List α} {s t : σ}
    (hs : P [] s) (h : as.foldlM f s = .ok t) : P as t := by
  suffices hgen : ∀ (as done : List α) (s : σ), P done s → as.foldlM f s = .ok t →
      P (done ++ as) t from hgen as [] s hs h
  intro as
  induction as with
  | nil =>
      intro done s hs h
      rw [List.append_nil, ← foldlM_nil_eq_ok.mp h]
      exact hs
  | cons a as ih =>
      intro done s hs h
      obtain ⟨s', hs', h⟩ := foldlM_cons_eq_ok.mp h
      rw [List.append_cons]
      exact ih _ _ (hstep _ _ _ _ hs hs') h

/-- A relation that each pass of the body respects holds between the first and the last state. -/
theorem foldlM_preserves {f : σ → α → Except ε σ} (P : σ → Prop) {as : List α}
    (hstep : ∀ a ∈ as, ∀ s s', P s → f s a = .ok s' → P s') {s t : σ}
    (hs : P s) (h : as.foldlM f s = .ok t) : P t := by
  induction as generalizing s with
  | nil => exact foldlM_nil_eq_ok.mp h ▸ hs
  | cons a as ih =>
      obtain ⟨s', hs', h⟩ := foldlM_cons_eq_ok.mp h
      exact ih (fun b hb => hstep b (.tail _ hb)) (hstep a (.head _) _ _ hs hs') h

/-- The invariant rule of a loop over a list that never stops: each pass returns and keeps what holds of the
elements it has already passed. -/
theorem foldlM_ok {f : σ → α → Except ε σ} (P : List α → σ → Prop) {as : List α}
    (hstep : ∀ done a s, a ∈ as → P done s → ∃ s', f s a = .ok s' ∧ P (done ++ [a]) s') {s : σ} (hs : P [] s) :
    ∃ t, as.foldlM f s = .ok t ∧ P as t := by
  suffices hgen : ∀ (rest done : List α) (s : σ), (∀ a ∈ rest, a ∈ as) → P done s →
      ∃ t, rest.foldlM f s = .ok t ∧ P (done ++ rest) t from hgen as [] s (fun _ ha => ha) hs
  intro rest
  induction rest with
  | nil =>
      intro done s _ hs
      refine ⟨s, foldlM_nil_eq_ok.mpr rfl, ?_⟩
      rwa [List.append_nil]
  | cons a rest ih =>
      intro done s hrest hs
      obtain ⟨s', hs', hP⟩ := hstep done a s (hrest a (.head _)) hs
      obtain ⟨t, ht, hP'⟩ := ih (done ++ [a]) s' (fun b hb => hrest b (.tail _ hb)) hP
      refine ⟨t, foldlM_cons_eq_ok.mpr ⟨s', hs', ht⟩, ?_⟩
      rwa [List.append_cons]

/-- A loop over a list whose body returns in every state. -/
theorem foldlM_total {f : σ → α → Except ε σ} {as : List α} (hf : ∀ a ∈ as, ∀ s, ∃ s', f s a = .ok s') (s : σ) :
    ∃ t, as.foldlM f s = .ok t := by
  obtain ⟨t, ht, _⟩ := foldlM_ok (fun _ _ => True)
    (fun _ a s ha _ => (hf a ha s).imp fun _ h => ⟨h, trivial⟩) trivial
  exact ⟨t, ht⟩

theorem mapM_nil_eq_ok {f : α → Except ε β} {bs : List β} :
    ([] : List α).mapM f = .ok bs ↔ bs = [] := by
  rw [List.mapM_nil]
  exact ⟨fun h => (Except.ok.inj h).symm, fun h => congrArg _ h.symm⟩

theorem mapM_cons_eq_ok {f : α → Except ε β} {a : α} {as : List α} {bs : List β} :
    (a :: as).mapM f = .ok bs ↔
      ∃ b bs', f a = .ok b ∧ as.mapM f = .ok bs' ∧ bs = b :: bs' := by
  rw [List.mapM_cons, bind_eq_ok]
  constructor
  · rintro ⟨b, hb, h⟩
    obtain ⟨bs', hbs', h⟩ := bind_eq_ok.mp h
    exact ⟨b, bs', hb, hbs', (Except.ok.inj h).symm⟩
  · rintro ⟨b, bs', hb, hbs', rfl⟩
    exact ⟨b, hb, bind_eq_ok.mpr ⟨bs', hbs', rfl⟩⟩

/-- The results of a mapped list are the results of its elements. -/
theorem mapM_mem {f : α → Except ε β} {as : List α} {bs : List β} (h : as.mapM f = .ok bs) {b : β} :
    b ∈ bs ↔ ∃ a ∈ as, f a = .ok b := by
  induction as generalizing bs with
  | nil =>
      rw [mapM_nil_eq_ok.mp h]
      simp
  | cons a as ih =>
      obtain ⟨b', bs', hb', hbs', rfl⟩ := mapM_cons_eq_ok.mp h
      rw [List.mem_cons, ih hbs']
      constructor
      · rintro (rfl | ⟨c, hc, hb⟩)
        · exact ⟨a, .head _, hb'⟩
        · exact ⟨c, .tail _ hc, hb⟩
      · rintro ⟨c, hc, hb⟩
        rcases List.mem_cons.mp hc with rfl | hc
        · exact .inl (Except.ok.inj (hb.symm.trans hb'))
        · exact .inr ⟨c, hc, hb⟩

theorem mapM_mem_of_mem {f : α → Except ε β} {as : List α} {bs : List β} (h : as.mapM f = .ok bs) {a : α}
    (ha : a ∈ as) : ∃ b ∈ bs, f a = .ok b := by
  induction as generalizing bs with
  | nil => cases ha
  | cons a' as ih =>
      obtain ⟨b', bs', hb', hbs', rfl⟩ := mapM_cons_eq_ok.mp h
      rcases List.mem_cons.mp ha with rfl | ha
      · exact ⟨b', .head _, hb'⟩
      · obtain ⟨b, hb, hab⟩ := ih hbs' ha
        exact ⟨b, .tail _ hb, hab⟩

theorem mapM_ok {f : α → Except ε β} {as : List α} (h : ∀ a ∈ as, ∃ b, f a = .ok b) :
    ∃ bs, as.mapM f = .ok bs := by
  induction as with
  | nil => exact ⟨[], mapM_nil_eq_ok.mpr rfl⟩
  | cons a as ih =>
      obtain ⟨b, hb⟩ := h a (.head _)
      obtain ⟨bs, hbs⟩ := ih fun a' ha' => h a' (.tail _ ha')
      exact ⟨b :: bs, mapM_cons_eq_ok.mpr ⟨b, bs, hb, hbs, rfl⟩⟩

end Fallible
