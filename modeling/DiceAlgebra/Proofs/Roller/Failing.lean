import DiceAlgebra.Proofs.Roller.Asking

/-! Runs that fail, taken apart into the runs of their steps. Steps in a row fail where the first of them does, and
the roller is then where the steps before that one have brought it. A formula fails as its leaves in a row do. -/
namespace DiceAlgebra

variable {ε ε' σ α β : Type}

theorem run_bind_eq_error {x : EStateM ε σ α} {f : α → EStateM ε σ β} {s t : σ} {e : ε} :
    (x >>= f).run s = .error e t ↔
      x.run s = .error e t ∨ ∃ a u, x.run s = .ok a u ∧ (f a).run u = .error e t := by
  rw [EStateM.run_bind]
  cases x.run s with
  | error e' u => simp
  | ok a u => simp [and_assoc]

theorem run_map_eq_error {f : α → β} {x : EStateM ε σ α} {s t : σ} {e : ε} :
    (f <$> x).run s = .error e t ↔ x.run s = .error e t := by
  rw [map_eq_pure_bind, run_bind_eq_error]
  simp

theorem exists_run_map_iff {f : α → β} {x : EStateM ε σ α} {s t : σ} :
    (∃ b, (f <$> x).run s = .ok b t) ↔ ∃ a, x.run s = .ok a t := by
  simp only [run_map_eq_ok]
  constructor
  · rintro ⟨_, a, run, -⟩
    exact ⟨a, run⟩
  · rintro ⟨a, run⟩
    exact ⟨f a, a, run, rfl⟩

theorem run_adaptExcept_eq_error {f : ε → ε'} {x : EStateM ε σ α} {s t : σ} {e' : ε'} :
    (x.adaptExcept f).run s = .error e' t ↔ ∃ e, x.run s = .error e t ∧ f e = e' := by
  rw [EStateM.run_adaptExcept]
  cases x.run s with
  | error e u =>
    constructor
    · rintro ⟨⟩
      exact ⟨e, rfl, rfl⟩
    · rintro ⟨_, ⟨⟩, rfl⟩
      rfl
  | ok a u => simp

theorem run_mapM_list_eq_error {f : α → EStateM ε σ β} {as : List α} {e : ε} {s t : σ} :
    (as.mapM f).run s = .error e t ↔ ∃ before a after bs u,
      as = before ++ a :: after ∧ (before.mapM f).run s = .ok bs u ∧ (f a).run u = .error e t := by
  induction as generalizing s with
  | nil => simp
  | cons a as ih =>
    rw [List.mapM_cons, run_bind_eq_error]
    simp only [run_bind_eq_error, EStateM.run_pure, ih]
    constructor
    · rintro (first | ⟨b, u, done, ⟨before, a', after, bs, v, rfl, run, failed⟩ | ⟨_, _, _, ⟨⟩⟩⟩)
      · exact ⟨[], a, as, [], s, rfl, rfl, first⟩
      · refine ⟨a :: before, a', after, b :: bs, v, rfl, ?_, failed⟩
        rw [List.mapM_cons]
        exact run_bind_eq_ok.mpr ⟨b, u, done, run_bind_eq_ok.mpr ⟨bs, v, run, rfl⟩⟩
    · rintro ⟨before, a', after, bs, v, divided, run, failed⟩
      cases before with
      | nil =>
        cases divided
        cases run
        exact Or.inl failed
      | cons first before =>
        cases divided
        rw [List.mapM_cons] at run
        obtain ⟨b, u, done, run⟩ := run_bind_eq_ok.mp run
        obtain ⟨bs, v, run, made⟩ := run_bind_eq_ok.mp run
        cases made
        exact Or.inr ⟨b, u, done, Or.inl ⟨before, a', after, bs, v, rfl, run, failed⟩⟩

theorem run_rollDie_eq_error [Roller σ] {faces : UInt32} {s t : σ} {e : ThrowError} :
    (rollDie faces).run s = .error e t ↔ Roller.rollDie? faces s = none ∧ e = .exhausted ∧ t = s := by
  change rollDie faces s = _ ↔ _
  rw [rollDie]
  split
  · next face next shows => simp [shows]
  · next dry => simp [dry, eq_comm]

namespace Formula

theorem leaves_mapM {m : Type → Type} [Monad m] [LawfulMonad m] (f : α → m β) (x : Formula α) :
    leaves <$> x.mapM f = x.leaves.mapM f := by
  induction x with
  | leaf a => simp [mapM, leaves]
  | unary op x ih => simp [mapM, leaves, ← ih]
  | binary op a b iha ihb => simp [mapM, leaves, ← iha, ← ihb, List.mapM_append]

theorem run_mapM_eq_error {f : α → EStateM ε σ β} {x : Formula α} {e : ε} {s t : σ} :
    (x.mapM f).run s = .error e t ↔ (x.leaves.mapM f).run s = .error e t := by
  rw [← leaves_mapM, run_map_eq_error]

theorem exists_run_mapM_iff {f : α → EStateM ε σ β} {x : Formula α} {s t : σ} :
    (∃ y, (x.mapM f).run s = .ok y t) ↔ ∃ bs, (x.leaves.mapM f).run s = .ok bs t := by
  rw [← leaves_mapM, exists_run_map_iff]

end Formula

section Row

variable [Roller σ] {f : α → EStateM ε σ β} {P : α → Prop} {asked : α → List UInt32}

theorem exists_run_mapM_list_iff
    (each : ∀ a (s t : σ), (∃ b, (f a).run s = .ok b t) ↔ P a ∧ ∃ shown, Roller.Shows (asked a) shown s t)
    (as : List α) (s t : σ) :
    (∃ bs, (as.mapM f).run s = .ok bs t) ↔
      (∀ a ∈ as, P a) ∧ ∃ shown, Roller.Shows (as.flatMap asked) shown s t := by
  induction as generalizing s with
  | nil =>
    constructor
    · rintro ⟨bs, ⟨⟩⟩
      exact ⟨List.forall_mem_nil P, [], .nil _⟩
    · rintro ⟨-, _, ⟨⟩⟩
      exact ⟨[], rfl⟩
  | cons a as ih =>
    rw [List.mapM_cons, List.flatMap_cons, List.forall_mem_cons]
    simp only [run_bind_eq_ok, Roller.shows_append_iff]
    constructor
    · rintro ⟨_, b, u, done, bs, v, run, ⟨⟩⟩
      obtain ⟨holds, first, shows⟩ := (each a s u).mp ⟨b, done⟩
      obtain ⟨all, second, later⟩ := (ih u).mp ⟨bs, run⟩
      exact ⟨⟨holds, all⟩, _, first, second, u, rfl, shows, later⟩
    · rintro ⟨⟨holds, all⟩, _, first, second, u, rfl, shows, later⟩
      obtain ⟨b, done⟩ := (each a s u).mpr ⟨holds, first, shows⟩
      obtain ⟨bs, run⟩ := (ih u).mpr ⟨all, second, later⟩
      exact ⟨b :: bs, b, u, done, bs, t, run, rfl⟩

theorem run_mapM_list_eq_error_iff
    (each : ∀ a (s t : σ), (∃ b, (f a).run s = .ok b t) ↔ P a ∧ ∃ shown, Roller.Shows (asked a) shown s t)
    {as : List α} {e : ε} {s t : σ} :
    (as.mapM f).run s = .error e t ↔ ∃ before a after shown u, as = before ++ a :: after ∧ (∀ b ∈ before, P b) ∧
      Roller.Shows (before.flatMap asked) shown s u ∧ (f a).run u = .error e t := by
  rw [run_mapM_list_eq_error]
  constructor
  · rintro ⟨before, a, after, bs, u, divided, run, failed⟩
    obtain ⟨all, shown, shows⟩ := (exists_run_mapM_list_iff each before s u).mp ⟨bs, run⟩
    exact ⟨before, a, after, shown, u, divided, all, shows, failed⟩
  · rintro ⟨before, a, after, shown, u, divided, all, shows, failed⟩
    obtain ⟨bs, run⟩ := (exists_run_mapM_list_iff each before s u).mpr ⟨all, shown, shows⟩
    exact ⟨before, a, after, bs, u, divided, run, failed⟩

end Row

end DiceAlgebra
