import ScriptImage.Proofs.Lowering

/-!
# Visits as respellings

A visit that succeeds respells each routine: every instruction is spelled as its step says, in
some state between the first and the last.  Conversely, a visit whose steps lower the
instructions of one pass succeeds on routines that stand for something.
-/

namespace ScriptImage.Visit

open Jumps (isMarker)

variable {σ : Type} {step : Step σ}

theorem routine_cons {s : σ} {p : Int} {i : Instr} {r : Routine} {result : σ × Nat × Routine} :
    routine step s p (i :: r) = .ok result ↔
      ∃ s' change s'' n r', step s p i = .ok (s', change) ∧
        routine step s' (p + i.size) r = .ok (s'', n, r') ∧
        result = (s'', if change.isSome then n + 1 else n, change.getD i :: r') := by
  rw [routine, Run.except_bind_eq_ok_iff]
  constructor
  · rintro ⟨⟨s', change⟩, hs, h⟩
    obtain ⟨⟨s'', n, r'⟩, hr, hlast⟩ := Run.except_bind_eq_ok_iff.1 h
    refine ⟨s', change, s'', n, r', hs, hr, ?_⟩
    cases change with
    | none => exact (Except.ok.inj hlast).symm
    | some j => exact (Except.ok.inj hlast).symm
  · rintro ⟨s', change, s'', n, r', hs, hr, rfl⟩
    refine ⟨(s', change), hs, Run.except_bind_eq_ok_iff.2 ⟨(s'', n, r'), hr, ?_⟩⟩
    cases change with
    | none => rfl
    | some j => rfl

/-- How a visit spells an instruction, in a state between the first and the last. -/
def spelling (step : Step σ) (le : σ → σ → Prop) (start : Int) (first last : σ) : Spelling :=
  fun q _ i i' => ∃ s s' change, le first s ∧ step s (q - start) i = .ok (s', change) ∧ le s' last ∧
    i' = change.getD i

/-- A successful visit respells the routine. -/
theorem respelled (le : σ → σ → Prop) (hrefl : ∀ s, le s s) (htrans : ∀ {a b c}, le a b → le b c → le a c)
    (hle : ∀ {s p i s' change}, step s p i = .ok (s', change) → le s s')
    (hmarker : ∀ {s p m s' change}, isMarker m = true → step s p m = .ok (s', change) → change = none)
    (start : Int) {s s'' : σ} {p : Int} {r r' : Routine} {n : Nat}
    (h : routine step s p r = .ok (s'', n, r')) :
    le s s'' ∧ Respelled (spelling step le start s s'') (fun _ => False) (fun _ => False)
      (start + p) r r' := by
  induction r generalizing s p r' n with
  | nil =>
    cases h
    exact ⟨hrefl _, Respelled.nil⟩
  | cons i r ih =>
    obtain ⟨s', change, s₂, n', r₂, hs, hr, heq⟩ := routine_cons.1 h
    cases heq
    obtain ⟨hle', hrest⟩ := ih hr
    have hfirst := hle hs
    -- the states of the rest of the visit come after the first one too
    have hrest' : Respelled (spelling step le start s s'') (fun _ => False) (fun _ => False)
        (start + (p + i.size)) r r₂ := by
      refine hrest.mono ?_ (fun _ => Iff.rfl) (fun _ hf => hf)
      rintro q b j j' - ⟨a, b, c, ha, hstep, hb, hj⟩
      exact ⟨a, b, c, htrans hfirst ha, hstep, hb, hj⟩
    refine ⟨htrans hfirst hle', ?_⟩
    by_cases hm : isMarker i = true
    · obtain rfl := hmarker hm hs
      have hp : start + (p + (i.size : Int)) = start + p := by
        rw [size_eq_zero_of_isMarker hm]
        omega
      rw [hp] at hrest'
      exact Respelled.keep hm (fun hf => hf) hrest'
    · rw [Bool.not_eq_true] at hm
      refine Respelled.instr hm ⟨s, s', change, hrefl s, ?_, hle', rfl⟩ ?_
      · have hp : start + p - start = p := by omega
        rw [hp]
        exact hs
      · rw [Int.add_assoc]
        exact hrest'

/-- A visit that keeps no state respells each routine. -/
theorem along_of_each {change : Instr → Except Error (Option Instr)}
    (hmarker : ∀ {m}, isMarker m = true → change m = .ok none) {rs rs' : List Routine} {n : Nat}
    (h : each change rs = .ok (n, rs')) (p : Int) :
    Along (fun start r r' => Respelled
      (fun _ _ i i' => change i = .ok none ∧ i' = i ∨ change i = .ok (some i')) (fun _ => False)
      (fun _ => False) start r r') p rs rs' := by
  unfold each at h
  obtain ⟨⟨u, n', rs''⟩, hrun, heq⟩ := Run.except_map_eq_ok_iff.1 h
  obtain rfl : rs' = rs'' := congrArg Prod.snd heq
  clear heq h
  induction rs generalizing p n' rs' u with
  | nil =>
    cases hrun
    exact Along.nil
  | cons r rs ih =>
    rw [routines, Run.except_bind_eq_ok_iff] at hrun
    obtain ⟨⟨⟨⟩, n₁, r'⟩, hr, hrun⟩ := hrun
    obtain ⟨⟨⟨⟩, n₂, rest⟩, hrs, hlast⟩ := Run.except_bind_eq_ok_iff.1 hrun
    cases hlast
    refine Along.cons ?_ (ih _ _ _ hrs)
    have hspell := (respelled (fun _ _ => True) (fun _ => trivial) (fun _ _ => trivial)
      (fun _ => trivial) ?_ p hr).2
    · rw [Int.add_zero] at hspell
      refine hspell.mono ?_ (fun _ => Iff.rfl) (fun _ hf => hf)
      rintro q b i i' - ⟨a, c, j, -, hstep, -, rfl⟩
      obtain ⟨j', hj, heq⟩ := Run.except_map_eq_ok_iff.1 hstep
      cases heq
      cases j with
      | none => exact Or.inl ⟨hj, rfl⟩
      | some i' => exact Or.inr hj
    · intro s p m s' c hm hstep
      rw [hmarker hm] at hstep
      cases hstep
      rfl

/-! ## Visits that lower -/

/-- What a step answers that lowers the instructions of a pass. -/
def Answers (s : Subject) (F : Frame) (q : Int) (b : Bool) (i : Instr) (change : Option Instr) : Prop :=
  (i.subject? ≠ some s ∧ change = none) ∨
    (i.subject? = some s ∧ ∃ o, Denotes F q b i o ∧ change = some (.op o))

theorem Answers.isSome_iff {s : Subject} {F : Frame} {q : Int} {b : Bool} {i : Instr}
    {change : Option Instr} (h : Answers s F q b i change) :
    change.isSome = true ↔ i.subject? = some s := by
  rcases h with ⟨hi, rfl⟩ | ⟨hi, o, -, rfl⟩
  · exact iff_of_false nofun hi
  · exact iff_of_true rfl hi

theorem lowering_iff {s : Subject} {F : Frame} {q : Int} {b : Bool} {i i' : Instr} :
    lowering s F q b i i' ↔ ∃ change, Answers s F q b i change ∧ i' = change.getD i := by
  constructor
  · rintro (⟨hi, rfl⟩ | ⟨hi, o, ho, rfl⟩)
    · exact ⟨none, Or.inl ⟨hi, rfl⟩, rfl⟩
    · exact ⟨_, Or.inr ⟨hi, o, ho, rfl⟩, rfl⟩
  · rintro ⟨change, ⟨hi, rfl⟩ | ⟨hi, o, ho, rfl⟩, rfl⟩
    · exact Or.inl ⟨hi, rfl⟩
    · exact Or.inr ⟨hi, o, ho, rfl⟩

/-- A step that lowers the instructions of a pass. Its state takes in the items of instructions one
after the other; what it answers is right as long as the state `fits`. -/
structure Lowers {ι : Type} (step : Step σ) (item? : Instr → Option ι) (take : σ → ι → Except Error σ)
    (fits : σ → Prop) (s : Subject) (F : Frame) (start : Int) (r : Routine) : Prop where
  marker : ∀ {st q m}, isMarker m = true → item? m = none ∧ step st q m = .ok (st, none)
  instr : ∀ {st st' q b i change}, i ∈ r → isMarker i = false → fits st' →
    (step st (q - start) i = .ok (st', change) ↔
      (item? i).toList.foldlM take st = .ok st' ∧ Answers s F q b i change)
  back : ∀ {st x st'}, take st x = .ok st' → fits st' → fits st

section

variable {ι : Type} {item? : Instr → Option ι} {take : σ → ι → Except Error σ} {fits : σ → Prop}
  {s : Subject} {F : Frame} {start p : Int} {r r' : Routine} {st st' : σ} {n : Nat}

theorem Lowers.of_foldlM (h : Lowers step item? take fits s F start r) {xs : List ι}
    (hxs : xs.foldlM take st = .ok st') (hfits : fits st') : fits st := by
  induction xs generalizing st with
  | nil =>
    cases hxs
    exact hfits
  | cons x xs ih =>
    rw [List.foldlM_cons] at hxs
    obtain ⟨st₁, hx, hxs⟩ := Run.except_bind_eq_ok_iff.1 hxs
    exact h.back hx (ih hxs)

/-- A visit that lowers succeeds exactly if its items can be taken in and the routine can be lowered. -/
theorem routine_eq_ok_iff (h : Lowers step item? take fits s F start r) (hfits : fits st') :
    routine step st p r = .ok (st', n, r') ↔
      (r.filterMap item?).foldlM take st = .ok st' ∧ n = Routine.remaining s [r] ∧
        Respelled (lowering s F) (fun _ => False) (fun _ => False) (start + p) r r' := by
  induction r generalizing st p r' n with
  | nil =>
    constructor
    · intro hrun
      cases hrun
      exact ⟨rfl, rfl, Respelled.nil⟩
    · rintro ⟨hitems, rfl, hspell⟩
      cases hitems
      obtain rfl := Respelled.nil_iff.1 hspell
      rfl
  | cons i r ih =>
    have hrest : Lowers step item? take fits s F start r :=
      ⟨h.marker, fun hi => h.instr (List.mem_cons_of_mem _ hi), h.back⟩
    have hnext : start + p + (i.size : Int) = start + (p + i.size) := by omega
    have hp : start + p - start = p := by omega
    have hitems : ((i :: r).filterMap item?).foldlM take st =
        ((item? i).toList.foldlM take st >>= fun st₁ => (r.filterMap item?).foldlM take st₁) := by
      rw [← List.foldlM_append, List.filterMap_cons]
      cases item? i <;> rfl
    rw [routine_cons, hitems, Run.except_bind_eq_ok_iff]
    by_cases hm : isMarker i = true
    · obtain ⟨hnone, hstep⟩ := @h.marker st p i hm
      have hsize : p + (i.size : Int) = p := by
        rw [size_eq_zero_of_isMarker hm]
        omega
      rw [hnone, Routine.remaining_marker hm, hsize, hstep]
      constructor
      · rintro ⟨st₁, change, st₂, n', r₂, hs, hr, heq⟩
        cases hs
        cases heq
        obtain ⟨hfold, hn, hspell⟩ := (ih hrest).1 hr
        exact ⟨⟨st, rfl, hfold⟩, hn, Respelled.keep hm (fun hf => hf) hspell⟩
      · rintro ⟨⟨st₁, hst₁, hfold⟩, hn, hspell⟩
        cases hst₁
        rcases (Respelled.marker_iff hm).1 hspell with ⟨hg, -⟩ | ⟨-, r₂, hlater, rfl⟩
        · exact hg.elim
        · exact ⟨_, _, _, _, _, rfl, (ih hrest).2 ⟨hfold, hn, hlater⟩, rfl⟩
    · rw [Bool.not_eq_true] at hm
      have hinstr := fun {st₁ change} (hst₁ : fits st₁) =>
        @h.instr st st₁ (start + p) (Routine.feedsJump r) i change List.mem_cons_self hm hst₁
      rw [hp] at hinstr
      rw [Routine.remaining_instr hm]
      constructor
      · rintro ⟨st₁, change, st₂, n', r₂, hs, hr, heq⟩
        cases heq
        obtain ⟨hfold, hn, hspell⟩ := (ih hrest).1 hr
        obtain ⟨hitem, hanswer⟩ := (hinstr (hrest.of_foldlM hfold hfits)).1 hs
        refine ⟨⟨st₁, hitem, hfold⟩, ?_, Respelled.instr hm (lowering_iff.2 ⟨change, hanswer, rfl⟩) ?_⟩
        · simp only [hanswer.isSome_iff, hn]
        · rw [hnext]
          exact hspell
      · rintro ⟨⟨st₁, hitem, hfold⟩, hn, hspell⟩
        obtain ⟨i', r₂, hstep, hlater, rfl⟩ := (Respelled.instr_iff hm).1 hspell
        rw [hnext] at hlater
        obtain ⟨change, hanswer, rfl⟩ := lowering_iff.1 hstep
        have hs := (hinstr (hrest.of_foldlM hfold hfits)).2 ⟨hitem, hanswer⟩
        refine ⟨st₁, change, st', _, _, hs, (ih hrest).2 ⟨hfold, rfl, hlater⟩, ?_⟩
        simp only [hanswer.isSome_iff, hn]

end

/-- The same for all routines, with a step that does not look at positions. -/
theorem routines_eq_ok_iff {ι : Type} {item? : Instr → Option ι} {take : σ → ι → Except Error σ}
    {fits : σ → Prop} {s : Subject} {F : Int → Routine → Frame} {p : Int} {rs rs' : List Routine}
    {st st' : σ} {n : Nat}
    (h : ∀ {start r}, r ∈ rs → Lowers step item? take fits s (F start r) start r) (hfits : fits st') :
    routines step st rs = .ok (st', n, rs') ↔
      (rs.flatMap fun r => r.filterMap item?).foldlM take st = .ok st' ∧ n = Routine.remaining s rs ∧
        Along (fun start r r' => Respelled (lowering s (F start r)) (fun _ => False) (fun _ => False)
          start r r') p rs rs' := by
  induction rs generalizing st p rs' n with
  | nil =>
    constructor
    · intro hrun
      cases hrun
      exact ⟨rfl, rfl, Along.nil⟩
    · rintro ⟨hitems, rfl, hspell⟩
      cases hitems
      cases hspell
      rfl
  | cons r rs ih =>
    have hfirst := @h p r List.mem_cons_self
    have hrest : ∀ {start r}, r ∈ rs → Lowers step item? take fits s (F start r) start r :=
      fun hr => h (List.mem_cons_of_mem _ hr)
    -- the state after the first routine fits, since the last state does
    have hback : ∀ {st₁}, (rs.flatMap fun r => r.filterMap item?).foldlM take st₁ = .ok st' → fits st₁ :=
      fun hitems => hfirst.of_foldlM hitems hfits
    rw [routines, Run.except_bind_eq_ok_iff, List.flatMap_cons, List.foldlM_append,
      Run.except_bind_eq_ok_iff, Routine.remaining_cons]
    constructor
    · rintro ⟨⟨st₁, n₁, r'⟩, hr, hrun⟩
      obtain ⟨⟨st₂, n₂, rs₂⟩, hrs, hlast⟩ := Run.except_bind_eq_ok_iff.1 hrun
      cases hlast
      obtain ⟨hitems, hn, hspells⟩ := (ih (p := p + r.size) hrest).1 hrs
      obtain ⟨hitem, hn₁, hspell⟩ := (routine_eq_ok_iff hfirst (hback hitems)).1 hr
      rw [Int.add_zero] at hspell
      exact ⟨⟨st₁, hitem, hitems⟩, by rw [hn, hn₁], Along.cons hspell hspells⟩
    · rintro ⟨⟨st₁, hitem, hitems⟩, hn, hspell⟩
      cases hspell with
      | cons hspell hspells =>
        have hr := (routine_eq_ok_iff (p := 0) hfirst (hback hitems)).2
          ⟨hitem, rfl, by rw [Int.add_zero]; exact hspell⟩
        have hrs := (ih hrest).2 ⟨hitems, rfl, hspells⟩
        refine ⟨_, hr, Run.except_bind_eq_ok_iff.2 ⟨_, hrs, ?_⟩⟩
        rw [hn]
        rfl

/-- Without a state there is nothing to take in. -/
theorem Lowers.of_stateless {step : Step Unit} {s : Subject} {F : Frame} {start : Int} {r : Routine}
    (hmarker : ∀ {q m}, isMarker m = true → step () q m = .ok ((), none))
    (hinstr : ∀ {q b i change}, i ∈ r → isMarker i = false →
      (step () (q - start) i = .ok ((), change) ↔ Answers s F q b i change)) :
    Lowers step (fun _ => none) (fun _ (x : Empty) => x.elim) (fun _ => True) s F start r where
  marker := fun hm => ⟨rfl, hmarker hm⟩
  instr := fun hi hm _ => (hinstr hi hm).trans ⟨fun h => ⟨rfl, h⟩, fun h => h.2⟩
  back := fun _ _ => trivial

/-- A visit without a state succeeds exactly if the routine can be lowered. -/
theorem routine_eq_ok_iff_of_stateless {step : Step Unit} {s : Subject} {F : Frame} {start p : Int}
    {r r' : Routine} {n : Nat} (hmarker : ∀ {q m}, isMarker m = true → step () q m = .ok ((), none))
    (hinstr : ∀ {q b i change}, i ∈ r → isMarker i = false →
      (step () (q - start) i = .ok ((), change) ↔ Answers s F q b i change)) :
    routine step () p r = .ok ((), n, r') ↔ n = Routine.remaining s [r] ∧
      Respelled (lowering s F) (fun _ => False) (fun _ => False) (start + p) r r' := by
  have hitems : r.filterMap (fun _ => (none : Option Empty)) = [] := by simp
  rw [routine_eq_ok_iff (Lowers.of_stateless hmarker hinstr) trivial, hitems]
  exact ⟨fun h => h.2, fun h => ⟨rfl, h⟩⟩

/-- The same for visits that look at single instructions only. -/
theorem each_eq_ok_iff {change : Instr → Except Error (Option Instr)} {s : Subject}
    {F : Int → Routine → Frame} {p : Int} {rs rs' : List Routine} {n : Nat}
    (hmarker : ∀ {m}, isMarker m = true → change m = .ok none)
    (hinstr : ∀ {start r q b i j}, r ∈ rs → i ∈ r → isMarker i = false →
      (change i = .ok j ↔ Answers s (F start r) q b i j)) :
    each change rs = .ok (n, rs') ↔ n = Routine.remaining s rs ∧
      Along (fun start r r' => Respelled (lowering s (F start r)) (fun _ => False) (fun _ => False)
        start r r') p rs rs' := by
  have hvisit : ∀ {i : Instr} {j : Option Instr},
      ((change i).map fun j => ((), j)) = .ok ((), j) ↔ change i = .ok j := by
    intro i j
    cases change i <;> simp [Except.map]
  have hitems : (rs.flatMap fun r => r.filterMap fun _ => (none : Option Empty)) = [] := by simp
  have hlowers : ∀ {start r}, r ∈ rs → Lowers (fun _ _ i => (change i).map fun j => ((), j))
      (fun _ => none) (fun _ (x : Empty) => x.elim) (fun _ => True) s (F start r) start r :=
    fun hr => Lowers.of_stateless (fun hm => hvisit.2 (hmarker hm)) fun hi hm =>
      hvisit.trans (hinstr hr hi hm)
  unfold each
  rw [Run.except_map_eq_ok_iff]
  constructor
  · rintro ⟨⟨⟨⟩, n', rs''⟩, hrun, heq⟩
    cases heq
    exact ((routines_eq_ok_iff hlowers trivial).1 hrun).2
  · intro h
    exact ⟨((), n, rs'), (routines_eq_ok_iff hlowers trivial).2 ⟨by rw [hitems]; rfl, h⟩, rfl⟩

end ScriptImage.Visit
