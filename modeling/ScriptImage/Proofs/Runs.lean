import ScriptImage.Error

/-!
# Runs

Readers and passes are computations that carry a state and may fail.  A composed
computation succeeds exactly if its parts succeed one after the other; the lemmas here
take a run apart, and put one together, without unfolding what is run.  Two computations
are `Alike` if they fail with the same error or succeed with related answers.
-/

namespace ScriptImage.Run

variable {ε σ α β : Type}

/-! ## Computations with a state -/

instance decEqResult [DecidableEq ε] [DecidableEq σ] [DecidableEq α] :
    DecidableEq (EStateM.Result ε σ α)
  | .ok a s, .ok b t =>
    decidable_of_iff (a = b ∧ s = t) (by rw [EStateM.Result.ok.injEq])
  | .error e s, .error f t =>
    decidable_of_iff (e = f ∧ s = t) (by rw [EStateM.Result.error.injEq])
  | .ok .., .error .. => isFalse nofun
  | .error .., .ok .. => isFalse nofun

theorem bind_eq_ok_iff {x : EStateM ε σ α} {f : α → EStateM ε σ β} {s s'' : σ} {b : β} :
    (x >>= f) s = .ok b s'' ↔ ∃ a s', x s = .ok a s' ∧ f a s' = .ok b s'' := by
  show EStateM.bind x f s = _ ↔ _
  unfold EStateM.bind
  cases h : x s with
  | ok a s' =>
    constructor
    · intro hf
      exact ⟨a, s', rfl, hf⟩
    · rintro ⟨a', s₁, hx, hf⟩
      cases hx
      exact hf
  | error e s' => simp

theorem bind_of_ok {x : EStateM ε σ α} {f : α → EStateM ε σ β} {s s' : σ} {a : α}
    (h : x s = .ok a s') : (x >>= f) s = f a s' := by
  show EStateM.bind x f s = _
  rw [EStateM.bind, h]

theorem bind_of_error {x : EStateM ε σ α} {f : α → EStateM ε σ β} {s s' : σ} {e : ε}
    (h : x s = .error e s') : (x >>= f) s = .error e s' := by
  show EStateM.bind x f s = _
  rw [EStateM.bind, h]

/-- How a computation goes on matters only at what its first part answers. -/
theorem bind_congr {x : EStateM ε σ α} {f g : α → EStateM ε σ β} {s : σ}
    (h : ∀ a s', x s = .ok a s' → f a s' = g a s') : (x >>= f) s = (x >>= g) s := by
  cases hx : x s with
  | ok a s' => rw [bind_of_ok hx, bind_of_ok hx, h a s' hx]
  | error e s' => rw [bind_of_error hx, bind_of_error hx]

theorem pure_eq_ok_iff {a b : α} {s s' : σ} :
    (pure a : EStateM ε σ α) s = .ok b s' ↔ b = a ∧ s' = s := by
  show EStateM.pure a s = _ ↔ _
  simp only [EStateM.pure, EStateM.Result.ok.injEq]
  exact and_congr eq_comm eq_comm

theorem throw_ne_ok {e : ε} {s s' : σ} {a : α} :
    (throw e : EStateM ε σ α) s ≠ .ok a s' := by
  intro h
  cases h

/-- Whatever takes over the outcome of a computation without a state succeeds exactly if that does. -/
theorem lift_eq_ok_iff {lift : Except Error α → EStateM ε σ α} (hok : ∀ a, lift (.ok a) = pure a)
    (herror : ∀ e, ∃ e', lift (.error e) = throw e') {x : Except Error α} {a : α} {s s' : σ} :
    lift x s = .ok a s' ↔ x = .ok a ∧ s' = s := by
  cases x with
  | ok b => rw [hok, pure_eq_ok_iff, Except.ok.injEq, eq_comm]
  | error e =>
    obtain ⟨e', he⟩ := herror e
    rw [he]
    constructor
    · intro h
      exact absurd h throw_ne_ok
    · rintro ⟨h, -⟩
      cases h

/-- A check that throws lets through exactly what passes it. -/
theorem guard_eq_ok_iff {p : Prop} [Decidable p] {e : ε} {k : PUnit → EStateM ε σ α}
    {s s' : σ} {a : α} :
    (if p then (throw e >>= k) else k ⟨⟩ : EStateM ε σ α) s = .ok a s' ↔
      ¬p ∧ k ⟨⟩ s = .ok a s' := by
  by_cases hp : p
  · rw [if_pos hp, bind_eq_ok_iff]
    constructor
    · rintro ⟨u, s₁, h, -⟩
      exact absurd h throw_ne_ok
    · rintro ⟨h, -⟩
      exact absurd hp h
  · rw [if_neg hp]
    exact ⟨fun h => ⟨hp, h⟩, fun h => h.2⟩

theorem get_eq_ok_iff {a s s' : σ} : (get : EStateM ε σ σ) s = .ok a s' ↔ a = s ∧ s' = s := by
  show EStateM.Result.ok s s = _ ↔ _
  simp only [EStateM.Result.ok.injEq]
  exact and_congr eq_comm eq_comm

theorem set_eq_ok_iff {t s s' : σ} {u : PUnit} :
    (set t : EStateM ε σ PUnit) s = .ok u s' ↔ s' = t := by
  show EStateM.Result.ok PUnit.unit t = _ ↔ _
  simp only [EStateM.Result.ok.injEq, true_and]
  exact eq_comm

theorem modify_eq_ok_iff {f : σ → σ} {s s' : σ} {u : PUnit} :
    (modify f : EStateM ε σ PUnit) s = .ok u s' ↔ s' = f s := by
  show EStateM.Result.ok PUnit.unit (f s) = _ ↔ _
  simp only [EStateM.Result.ok.injEq, true_and]
  exact eq_comm

/-! ## Computations that only fail -/

theorem except_bind_eq_ok_iff {x : Except Error α} {f : α → Except Error β} {b : β} :
    (x >>= f) = .ok b ↔ ∃ a, x = .ok a ∧ f a = .ok b := by
  cases x with
  | ok a =>
    show f a = .ok b ↔ _
    constructor
    · intro hf
      exact ⟨a, rfl, hf⟩
    · rintro ⟨a', ha, hf⟩
      cases ha
      exact hf
  | error e =>
    constructor
    · intro h
      cases h
    · rintro ⟨a, ha, -⟩
      cases ha

theorem except_bind_eq_error_iff {x : Except Error α} {f : α → Except Error β} {e : Error} :
    (x >>= f) = .error e ↔ x = .error e ∨ ∃ a, x = .ok a ∧ f a = .error e := by
  cases x with
  | ok a =>
    show f a = .error e ↔ _
    simp
  | error e' =>
    show Except.error e' = .error e ↔ _
    simp

theorem except_map_eq_ok_iff {x : Except Error α} {f : α → β} {b : β} :
    x.map f = .ok b ↔ ∃ a, x = .ok a ∧ b = f a := by
  cases x with
  | ok a =>
    simp only [Except.map, Except.ok.injEq, exists_eq_left']
    exact eq_comm
  | error e => simp [Except.map]

theorem except_map_eq_error_iff {x : Except Error α} {f : α → β} {e : Error} :
    x.map f = .error e ↔ x = .error e := by
  cases x <;> simp [Except.map]

theorem mapM_eq_ok_iff {f : α → Except Error β} {xs : List α} {ys : List β} :
    xs.mapM f = .ok ys ↔ xs.map f = ys.map .ok := by
  induction xs generalizing ys with
  | nil =>
    rw [List.mapM_nil, List.map_nil, eq_comm (b := ys.map Except.ok), List.map_eq_nil_iff]
    exact Except.ok.injEq [] ys ▸ eq_comm
  | cons x xs ih =>
    rw [List.mapM_cons, except_bind_eq_ok_iff]
    constructor
    · rintro ⟨y, hy, hrest⟩
      obtain ⟨ys', hys, hlast⟩ := except_bind_eq_ok_iff.1 hrest
      cases hlast
      rw [List.map_cons, List.map_cons, hy, ih.1 hys]
    · intro h
      cases ys with
      | nil => cases h
      | cons y ys' =>
        rw [List.map_cons, List.map_cons, List.cons.injEq] at h
        exact ⟨y, h.1, except_bind_eq_ok_iff.2 ⟨ys', ih.2 h.2, rfl⟩⟩

/-- A traversal keeps what each of its steps keeps. -/
theorem map_eq_of_mapM {γ : Type} {f : α → Except Error β} {g : α → γ} {k : β → γ}
    (hstep : ∀ x y, f x = .ok y → k y = g x) {xs : List α} {ys : List β} (h : xs.mapM f = .ok ys) :
    ys.map k = xs.map g := by
  rw [mapM_eq_ok_iff] at h
  induction xs generalizing ys with
  | nil =>
    obtain rfl := List.map_eq_nil_iff.1 h.symm
    rfl
  | cons x xs ih =>
    cases ys with
    | nil => cases h
    | cons y ys =>
      rw [List.map_cons, List.map_cons, List.cons.injEq] at h
      rw [List.map_cons, List.map_cons, hstep x y h.1, ih h.2]

theorem length_of_mapM {f : α → Except Error β} {xs : List α} {ys : List β}
    (h : xs.mapM f = .ok ys) : ys.length = xs.length := by
  have hlen := congrArg List.length (mapM_eq_ok_iff.1 h)
  rw [List.length_map, List.length_map] at hlen
  exact hlen.symm

theorem exists_mapM {f : α → Except Error β} {xs : List α} (h : ∀ x ∈ xs, ∃ y, f x = .ok y) :
    ∃ ys, xs.mapM f = .ok ys := by
  induction xs with
  | nil => exact ⟨[], rfl⟩
  | cons x xs ih =>
    obtain ⟨y, hy⟩ := h x List.mem_cons_self
    obtain ⟨ys, hys⟩ := ih fun x' hx' => h x' (List.mem_cons_of_mem _ hx')
    refine ⟨y :: ys, ?_⟩
    rw [mapM_eq_ok_iff, List.map_cons, List.map_cons, hy, mapM_eq_ok_iff.1 hys]

theorem mem_of_mapM {f : α → Except Error β} {xs : List α} {ys : List β} {x : α}
    (h : xs.mapM f = .ok ys) (hx : x ∈ xs) : ∃ y ∈ ys, f x = .ok y := by
  have hmem : f x ∈ ys.map Except.ok := by
    rw [← mapM_eq_ok_iff.1 h]
    exact List.mem_map.2 ⟨x, hx, rfl⟩
  obtain ⟨y, hy, heq⟩ := List.mem_map.1 hmem
  exact ⟨y, hy, heq.symm⟩

theorem exists_of_mem_of_mapM {f : α → Except Error β} {xs : List α} {ys : List β} {y : β}
    (h : xs.mapM f = .ok ys) (hy : y ∈ ys) : ∃ x ∈ xs, f x = .ok y := by
  have hmem : Except.ok y ∈ xs.map f := by
    rw [mapM_eq_ok_iff.1 h]
    exact List.mem_map.2 ⟨y, hy, rfl⟩
  exact List.mem_map.1 hmem

/-- Two traversals, the second of which leads from each result of the first to a known value. -/
theorem exists_mapM_mapM {γ : Type} {f : α → Except Error β} {g : β → Except Error γ} {k : α → γ}
    {xs : List α} (h : ∀ x ∈ xs, ∃ y, f x = .ok y ∧ g y = .ok (k x)) :
    ∃ ys, xs.mapM f = .ok ys ∧ ys.mapM g = .ok (xs.map k) := by
  induction xs with
  | nil => exact ⟨[], rfl, rfl⟩
  | cons x xs ih =>
    obtain ⟨y, hfy, hgy⟩ := h x List.mem_cons_self
    obtain ⟨ys, hys, hgys⟩ := ih fun x' hx' => h x' (List.mem_cons_of_mem _ hx')
    refine ⟨y :: ys, ?_, ?_⟩
    · rw [mapM_eq_ok_iff, List.map_cons, List.map_cons, hfy, mapM_eq_ok_iff.1 hys]
    · rw [mapM_eq_ok_iff, List.map_cons, List.map_cons, List.map_cons, hgy, mapM_eq_ok_iff.1 hgys]

/-! ## Computations that fail alike -/

/-- Two computations fail alike, or have related results. -/
inductive Alike (R : α → β → Prop) : Except Error α → Except Error β → Prop where
  | ok {a : α} {b : β} (h : R a b) : Alike R (.ok a) (.ok b)
  | error (e : Error) : Alike R (.error e) (.error e)

namespace Alike

variable {γ δ : Type} {R : α → β → Prop} {S : γ → δ → Prop} {x : Except Error α} {y : Except Error β}

theorem self (x : Except Error α) : Alike (fun a b => b = a ∧ x = .ok a) x x := by
  cases x with
  | ok a => exact .ok ⟨rfl, rfl⟩
  | error e => exact .error e

theorem imp {T : α → β → Prop} (h : Alike R x y) (hRT : ∀ a b, R a b → T a b) : Alike T x y := by
  cases h with
  | ok h => exact .ok (hRT _ _ h)
  | error e => exact .error e

theorem bind {f : α → Except Error γ} {g : β → Except Error δ} (h : Alike R x y)
    (hfg : ∀ a b, R a b → Alike S (f a) (g b)) : Alike S (x >>= f) (y >>= g) := by
  cases h with
  | ok h => exact hfg _ _ h
  | error e => exact .error e

theorem map {f : α → γ} {g : β → δ} (h : Alike R x y) (hfg : ∀ a b, R a b → S (f a) (g b)) :
    Alike S (x.map f) (y.map g) := by
  cases h with
  | ok h => exact .ok (hfg _ _ h)
  | error e => exact .error e

end Alike

end ScriptImage.Run
