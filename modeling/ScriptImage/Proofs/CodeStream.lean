import ScriptImage.Proofs.Layout
import ScriptImage.Proofs.Reading
import ScriptImage.Proofs.Storing

/-!
# Code streams

The stored form of code has no boundaries between routines: a routine ends with its first
end instruction.  So code can be read back exactly if every routine ends once, that is,
contains one end instruction and contains it last.  `Code.reads` states what a stream must be
for `Code.read` to accept it, and what comes out:

* the bytes up to the end are the stored form of routines that end once,
* all of it lies within the offset space,
* every expected offset is the start of a routine.

Reading is taken apart into decoding instructions (`readFrom_eq_ok_iff`) and a scan over
decoded instructions (`Scan.run`), which is where the expected offsets are checked.
-/

namespace ScriptImage

/-! ## Routines that end once -/

namespace Routine

/-- Whether a routine contains exactly one end instruction, and contains it last. -/
def EndsOnce (r : Routine) : Prop :=
  r.count (.op .endRoutine) = 1 ∧ r.getLast? = some (.op .endRoutine)

instance (r : Routine) : Decidable r.EndsOnce :=
  inferInstanceAs (Decidable (_ ∧ _))

theorem not_endsOnce_nil : ¬EndsOnce [] := by
  rintro ⟨h, -⟩
  cases h

theorem endsOnce_cons_end {r : Routine} : EndsOnce (.op .endRoutine :: r) ↔ r = [] := by
  constructor
  · rintro ⟨hcount, hlast⟩
    rw [List.count_cons_self] at hcount
    have hnot : Instr.op .endRoutine ∉ r := List.count_eq_zero.1 (by omega)
    cases r with
    | nil => rfl
    | cons i r =>
      rw [List.getLast?_cons_cons] at hlast
      exact absurd (List.mem_of_getLast? hlast) hnot
  · rintro rfl
    exact ⟨by decide, rfl⟩

theorem endsOnce_cons {i : Instr} {r : Routine} (hi : i ≠ .op .endRoutine) :
    EndsOnce (i :: r) ↔ EndsOnce r := by
  unfold EndsOnce
  rw [List.count_cons_of_ne hi]
  cases r with
  | nil => simp
  | cons j r => rw [List.getLast?_cons_cons]

theorem EndsOnce.ne_nil {r : Routine} (h : r.EndsOnce) : r ≠ [] := by
  rintro rfl
  exact not_endsOnce_nil h

@[simp]
theorem size_nil : size [] = 0 := rfl

@[simp]
theorem size_cons (i : Instr) (r : Routine) : size (i :: r) = i.size + r.size := rfl

theorem size_append (r r' : Routine) : size (r ++ r') = r.size + r'.size := by
  unfold size
  rw [List.map_append, List.sum_append]

theorem size_flatten (rs : List Routine) : size rs.flatten = (rs.map size).sum := by
  induction rs with
  | nil => rfl
  | cons r rs ih => rw [List.flatten_cons, size_append, List.map_cons, List.sum_cons, ih]

end Routine

theorem Op.size_pos (o : Op) : 0 < o.size := by
  unfold Op.size Opcode.size
  omega

theorem Op.isEnd_iff {o : Op} : o.isEnd = true ↔ o = .endRoutine := by
  obtain ⟨code, xs⟩ := o
  unfold Op.isEnd
  rw [decide_eq_true_eq]
  constructor
  · rintro rfl
    rfl
  · intro h
    exact congrArg Op.code h

theorem Routine.EndsOnce.size_pos {r : Routine} (h : r.EndsOnce) : 0 < r.size := by
  induction r with
  | nil => exact absurd h not_endsOnce_nil
  | cons i r ih =>
    rw [Routine.size_cons]
    by_cases hi : i = .op .endRoutine
    · have hpos := Op.size_pos .endRoutine
      rw [hi, Instr.size]
      omega
    · have := ih ((endsOnce_cons hi).1 h)
      omega

/-! ## Scanning instructions -/

namespace Code

namespace Scan

/-- Scans instructions of which the first begins at position `p`. -/
def run : Scan → Nat → List Op → Except Error (List (Routine × UInt32))
  | s, p, [] => s.close p
  | s, p, o :: os => do
    let (start, instrs, pending) ← s.enter p
    let s' ← s.leave start instrs pending o (p + o.size)
    run s' (p + o.size) os

/-- What the rest of a stream is while no routine is open, and what is read of it: routines that
end once and start at all pending offsets. -/
def Idle (pending : List UInt32) (p : Nat) (ops : List Op) (rs : List (Routine × UInt32)) : Prop :=
  ∃ routines : List Routine,
    ops.map Instr.op = routines.flatten ∧ (∀ r ∈ routines, r.EndsOnce) ∧
    (ops = [] ∨ p + Routine.size (ops.map Instr.op) ≤ maxOffset) ∧
    (∀ o ∈ pending, o ∈ startsFrom p routines) ∧ rs = routines.zip (startsFrom p routines)

/-- The same while a routine is open, of which `instrs` have been read. -/
def Open (start : Nat) (instrs : List Instr) (pending : List UInt32) (p : Nat) (ops : List Op)
    (rs : List (Routine × UInt32)) : Prop :=
  ∃ (tail : Routine) (routines : List Routine),
    ops.map Instr.op = tail ++ routines.flatten ∧ tail.EndsOnce ∧ (∀ r ∈ routines, r.EndsOnce) ∧
    p + Routine.size (ops.map Instr.op) ≤ maxOffset ∧
    (∀ o ∈ pending, o ∈ startsFrom (p + tail.size) routines) ∧
    rs = (instrs.reverse ++ tail, UInt32.ofNat start) ::
      routines.zip (startsFrom (p + tail.size) routines)

theorem enter_open {s : Scan} {start : Nat} {instrs : List Instr} (p : Nat)
    (h : s.current = some (start, instrs)) : s.enter p = .ok (start, instrs, s.pending) := by
  unfold enter
  rw [h]

theorem enter_idle_eq_ok_iff {s : Scan} {p start : Nat} {instrs : List Instr} {pending : List UInt32}
    (h : s.current = none) :
    s.enter p = .ok (start, instrs, pending) ↔
      p ≤ maxOffset ∧ start = p ∧ instrs = [] ∧
        (s.pending = UInt32.ofNat p :: pending ∨
          s.pending = pending ∧ ∀ o ∈ pending.head?, p < o.toNat) := by
  unfold enter
  rw [h]
  by_cases hp : maxOffset < p
  · simp only [if_pos hp, reduceCtorEq, false_iff]
    rintro ⟨hle, -⟩
    omega
  · have htoNat : ∀ o : UInt32, o = UInt32.ofNat p ↔ o.toNat = p := by
      intro o
      rw [← UInt32.toNat_inj, toNat_ofNat_of_le (by omega)]
    simp only [if_neg hp]
    cases hpending : s.pending with
    | nil => grind
    | cons next rest =>
      have hnext := htoNat next
      by_cases hlt : next.toNat < p
      · simp only [if_pos hlt, reduceCtorEq, false_iff]
        rintro ⟨-, -, -, heq | ⟨rfl, hhead⟩⟩
        · have := hnext.1 (List.cons.inj heq).1
          omega
        · have := hhead next rfl
          omega
      · by_cases heq : next.toNat = p
        · grind
        · grind

theorem leave_eq_ok_iff {s s' : Scan} {start p : Nat} {instrs : List Instr} {pending : List UInt32}
    {o : Op} :
    s.leave start instrs pending o p = .ok s' ↔
      p ≤ maxOffset ∧ (∀ n ∈ pending.head?, p < n.toNat ∨ n.toNat = p ∧ o.isEnd = true) ∧
        s' = if o.isEnd = true then
            ⟨pending, ((Instr.op o :: instrs).reverse, UInt32.ofNat start) :: s.finished, none⟩
          else ⟨pending, s.finished, some (start, Instr.op o :: instrs)⟩ := by
  unfold leave
  by_cases hp : maxOffset < p
  · simp only [if_pos hp, reduceCtorEq, false_iff]
    rintro ⟨hle, -⟩
    omega
  · simp only [if_neg hp]
    cases pending with
    | nil => grind
    | cons n rest => grind

/-- A routine that opens takes the offset at its start off the pending ones. -/
theorem idle_cons_iff {pending : List UInt32} {p : Nat} {o : Op} {os : List Op}
    {rs : List (Routine × UInt32)} (hsorted : pending.Pairwise (· < ·)) :
    Idle pending p (o :: os) rs ↔
      ∃ pending', p ≤ maxOffset ∧
        (pending = UInt32.ofNat p :: pending' ∨
          pending = pending' ∧ ∀ n ∈ pending'.head?, p < n.toNat) ∧
        Open p [] pending' p (o :: os) rs := by
  constructor
  · rintro ⟨routines, hops, hends, hfits, hpending, rfl⟩
    replace hfits : p + Routine.size ((o :: os).map Instr.op) ≤ maxOffset :=
      hfits.resolve_left (List.cons_ne_nil o os)
    cases routines with
    | nil => cases hops
    | cons r routines =>
      have hr := hends r List.mem_cons_self
      have hsize : p + r.size + (routines.map Routine.size).sum ≤ maxOffset := by
        rw [hops, List.flatten_cons, Routine.size_append, Routine.size_flatten] at hfits
        omega
      have hle : p ≤ maxOffset := by omega
      have hopen : ∀ pending', (∀ n ∈ pending', n ∈ startsFrom (p + r.size) routines) →
          Open p [] pending' p (o :: os) ((r :: routines).zip (startsFrom p (r :: routines))) :=
        fun pending' h => ⟨r, routines, hops, hr, fun r' hr' => hends r' (List.mem_cons_of_mem _ hr'),
          hfits, h, rfl⟩
      have hlater : ∀ n ∈ startsFrom (p + r.size) routines, p < n.toNat := by
        intro n hn
        have := le_of_mem_startsFrom hsize hn
        have := hr.size_pos
        omega
      by_cases hhead : pending.head? = some (UInt32.ofNat p)
      · obtain ⟨pending', rfl⟩ := List.head?_eq_some_iff.1 hhead
        refine ⟨pending', hle, Or.inl rfl, hopen pending' fun n hn => ?_⟩
        have hlt : UInt32.ofNat p < n := (List.pairwise_cons.1 hsorted).1 n hn
        rcases List.mem_cons.1 (hpending n (List.mem_cons_of_mem _ hn)) with rfl | hn'
        · exact absurd hlt (UInt32.lt_irrefl _)
        · exact hn'
      · -- no pending offset is the start of this routine, so all are starts further on
        have hothers : ∀ n ∈ pending, n ∈ startsFrom (p + r.size) routines := by
          cases pending with
          | nil =>
            intro n hn
            cases hn
          | cons first rest =>
            have hfirst : first ∈ startsFrom (p + r.size) routines := by
              rcases List.mem_cons.1 (hpending first List.mem_cons_self) with heq | h
              · rw [heq] at hhead
                exact absurd rfl hhead
              · exact h
            intro n hn
            rcases List.mem_cons.1 (hpending n hn) with heq | h
            · have hpn : n.toNat = p := by rw [heq, toNat_ofNat_of_le hle]
              have hpf := hlater first hfirst
              rcases List.mem_cons.1 hn with rfl | hn
              · omega
              · have hlt := UInt32.lt_iff_toNat_lt.1 ((List.pairwise_cons.1 hsorted).1 n hn)
                omega
            · exact h
        refine ⟨pending, hle, Or.inr ⟨rfl, fun n hn => ?_⟩, hopen pending hothers⟩
        exact hlater n (hothers n (List.mem_of_head? hn))
  · rintro ⟨pending', -, hpending, r, routines, hops, hr, hends, hfits, hstarts, rfl⟩
    refine ⟨r :: routines, hops, ?_, Or.inr hfits, ?_, rfl⟩
    · intro r' hr'
      rcases List.mem_cons.1 hr' with rfl | hr'
      · exact hr
      · exact hends r' hr'
    · rcases hpending with rfl | ⟨rfl, -⟩
      · intro n hn
        rcases List.mem_cons.1 hn with rfl | hn
        · exact List.mem_cons_self
        · exact List.mem_cons_of_mem _ (hstarts n hn)
      · intro n hn
        exact List.mem_cons_of_mem _ (hstarts n hn)

/-- In an open routine an end instruction closes it, and any other one continues it. -/
theorem open_cons_iff {start p : Nat} {instrs : List Instr} {pending : List UInt32} {o : Op}
    {os : List Op} {rs : List (Routine × UInt32)} :
    Open start instrs pending p (o :: os) rs ↔
      p + o.size ≤ maxOffset ∧
      (∀ n ∈ pending.head?, p + o.size < n.toNat ∨ n.toNat = p + o.size ∧ o.isEnd = true) ∧
      if o.isEnd = true then
        ∃ rs', rs = ((Instr.op o :: instrs).reverse, UInt32.ofNat start) :: rs' ∧
          Idle pending (p + o.size) os rs'
      else Open start (Instr.op o :: instrs) pending (p + o.size) os rs := by
  have hsizes : p + Routine.size ((o :: os).map Instr.op) =
      p + o.size + Routine.size (os.map Instr.op) := by
    rw [List.map_cons, Routine.size_cons, Instr.size]
    omega
  by_cases hend : o.isEnd = true
  · obtain rfl := Op.isEnd_iff.1 hend
    rw [if_pos hend]
    constructor
    · rintro ⟨tail, routines, hops, htail, hends, hfits, hpending, rfl⟩
      cases tail with
      | nil => exact absurd htail Routine.not_endsOnce_nil
      | cons i tail =>
        rw [List.map_cons, List.cons_append, List.cons.injEq] at hops
        obtain ⟨rfl, hops⟩ := hops
        obtain rfl := Routine.endsOnce_cons_end.1 htail
        rw [List.nil_append] at hops
        rw [hsizes] at hfits
        have hstart : p + Routine.size [Instr.op .endRoutine] = p + Op.endRoutine.size := rfl
        rw [hstart] at hpending
        refine ⟨by omega, fun n hn => ?_, routines.zip (startsFrom (p + Op.endRoutine.size) routines),
          ?_, routines, hops, hends, Or.inr hfits, hpending, rfl⟩
        · rw [hops, Routine.size_flatten] at hfits
          have := le_of_mem_startsFrom hfits (hpending n (List.mem_of_head? hn))
          rcases Nat.lt_or_eq_of_le this with h | h
          · exact Or.inl h
          · exact Or.inr ⟨h.symm, hend⟩
        · rw [List.reverse_cons, hstart]
    · rintro ⟨hle, -, rs', rfl, routines, hops, hends, hfits, hpending, rfl⟩
      refine ⟨[.op .endRoutine], routines, ?_, Routine.endsOnce_cons_end.2 rfl, hends, ?_, hpending, ?_⟩
      · rw [List.map_cons, hops]
        rfl
      · rw [hsizes]
        rcases hfits with rfl | hfits
        · exact hle
        · exact hfits
      · rw [List.reverse_cons]
        rfl
  · have hne : Instr.op o ≠ .op .endRoutine := by
      intro h
      exact hend (Op.isEnd_iff.2 (Instr.op.inj h))
    rw [if_neg hend]
    constructor
    · rintro ⟨tail, routines, hops, htail, hends, hfits, hpending, rfl⟩
      cases tail with
      | nil => exact absurd htail Routine.not_endsOnce_nil
      | cons i tail =>
        rw [List.map_cons, List.cons_append, List.cons.injEq] at hops
        obtain ⟨rfl, hops⟩ := hops
        rw [Routine.endsOnce_cons hne] at htail
        rw [Routine.size_cons, Instr.size, ← Nat.add_assoc] at hpending
        rw [hsizes] at hfits
        refine ⟨by omega, fun n hn => ?_, tail, routines, hops, htail, hends, hfits, hpending, ?_⟩
        · rw [hops, Routine.size_append, Routine.size_flatten, ← Nat.add_assoc] at hfits
          have := le_of_mem_startsFrom hfits (hpending n (List.mem_of_head? hn))
          have := htail.size_pos
          exact Or.inl (by omega)
        · rw [Routine.size_cons, Instr.size, ← Nat.add_assoc, List.reverse_cons, List.append_assoc]
          rfl
    · rintro ⟨-, -, tail, routines, hops, htail, hends, hfits, hpending, rfl⟩
      refine ⟨.op o :: tail, routines, ?_, (Routine.endsOnce_cons hne).2 htail, hends, ?_, ?_, ?_⟩
      · rw [List.map_cons, hops]
        rfl
      · rw [hsizes]
        exact hfits
      · rw [Routine.size_cons, Instr.size, ← Nat.add_assoc]
        exact hpending
      · rw [Routine.size_cons, Instr.size, ← Nat.add_assoc, List.reverse_cons, List.append_assoc]
        rfl

/-- What a scan makes of the rest of a stream. -/
def Yields (s : Scan) (p : Nat) (ops : List Op) (rs : List (Routine × UInt32)) : Prop :=
  match s.current with
  | none => Idle s.pending p ops rs
  | some (start, instrs) => Open start instrs s.pending p ops rs

theorem close_eq_ok_iff {s : Scan} {p : Nat} {rs : List (Routine × UInt32)} :
    s.close p = .ok rs ↔ ∃ rest, rs = s.finished.reverse ++ rest ∧ s.Yields p [] rest := by
  obtain ⟨pending, finished, current⟩ := s
  cases current with
  | some c =>
    obtain ⟨start, instrs⟩ := c
    constructor
    · intro h
      cases h
    · rintro ⟨rest, -, tail, routines, hops, htail, -⟩
      obtain ⟨rfl, -⟩ := List.append_eq_nil_iff.1 hops.symm
      exact absurd htail Routine.not_endsOnce_nil
  | none =>
    have hnil : ∀ routines : List Routine, [] = routines.flatten → (∀ r ∈ routines, r.EndsOnce) →
        routines = [] := by
      intro routines hops hends
      cases routines with
      | nil => rfl
      | cons r routines =>
        obtain ⟨hr, -⟩ := List.append_eq_nil_iff.1 hops.symm
        exact absurd hr (hends r List.mem_cons_self).ne_nil
    cases pending with
    | nil =>
      constructor
      · intro h
        cases h
        exact ⟨[], (List.append_nil _).symm, [], rfl, fun r hr => absurd hr List.not_mem_nil,
          Or.inl rfl, fun n hn => absurd hn List.not_mem_nil, rfl⟩
      · rintro ⟨rest, rfl, routines, hops, hends, -, -, rfl⟩
        obtain rfl := hnil routines hops hends
        rw [List.zip_nil_left, List.append_nil]
        rfl
    | cons n pending =>
      constructor
      · intro h
        cases h
      · rintro ⟨rest, -, routines, hops, hends, -, hpending, -⟩
        obtain rfl := hnil routines hops hends
        exact absurd (hpending n List.mem_cons_self) List.not_mem_nil

/-- **The scan.**  It succeeds exactly on streams of routines that end once and that start at
all pending offsets. -/
theorem run_eq_ok_iff {s : Scan} {p : Nat} {ops : List Op} {rs : List (Routine × UInt32)}
    (hsorted : s.pending.Pairwise (· < ·)) :
    s.run p ops = .ok rs ↔ ∃ rest, rs = s.finished.reverse ++ rest ∧ s.Yields p ops rest := by
  induction ops generalizing s p with
  | nil => exact close_eq_ok_iff
  | cons o os ih =>
    -- once the routine of `o` is open, leaving `o` and scanning on is what `Open` says
    have hstep : ∀ (start : Nat) (instrs : List Instr) (pending : List UInt32),
        pending.Pairwise (· < ·) →
        ((∃ s', s.leave start instrs pending o (p + o.size) = .ok s' ∧ s'.run (p + o.size) os = .ok rs) ↔
          ∃ rest, rs = s.finished.reverse ++ rest ∧ Open start instrs pending p (o :: os) rest) := by
      intro start instrs pending hpending
      simp only [leave_eq_ok_iff, open_cons_iff]
      by_cases hend : o.isEnd = true
      · simp only [if_pos hend]
        constructor
        · rintro ⟨s', ⟨hle, hhead, rfl⟩, hrun⟩
          obtain ⟨rest, rfl, hidle⟩ := (ih hpending).1 hrun
          exact ⟨_, by simp, hle, hhead, rest, rfl, hidle⟩
        · rintro ⟨_, rfl, hle, hhead, rest, rfl, hidle⟩
          exact ⟨_, ⟨hle, hhead, rfl⟩, (ih hpending).2 ⟨rest, by simp, hidle⟩⟩
      · simp only [if_neg hend]
        constructor
        · rintro ⟨s', ⟨hle, hhead, rfl⟩, hrun⟩
          obtain ⟨rest, rfl, hopen⟩ := (ih hpending).1 hrun
          exact ⟨rest, rfl, hle, hhead, hopen⟩
        · rintro ⟨rest, rfl, hle, hhead, hopen⟩
          exact ⟨_, ⟨hle, hhead, rfl⟩, (ih hpending).2 ⟨rest, rfl, hopen⟩⟩
    rw [run, Run.except_bind_eq_ok_iff]
    unfold Yields
    cases hcurrent : s.current with
    | some c =>
      obtain ⟨start, instrs⟩ := c
      rw [← hstep start instrs s.pending hsorted]
      constructor
      · rintro ⟨⟨start', instrs', pending⟩, hentered, hrest⟩
        rw [enter_open p hcurrent] at hentered
        cases hentered
        exact Run.except_bind_eq_ok_iff.1 hrest
      · intro hrest
        exact ⟨_, enter_open p hcurrent, Run.except_bind_eq_ok_iff.2 hrest⟩
    | none =>
      simp only [idle_cons_iff hsorted]
      constructor
      · rintro ⟨⟨start, instrs, pending⟩, hentered, hrest⟩
        obtain ⟨hle, rfl, rfl, hpending⟩ := (enter_idle_eq_ok_iff hcurrent).1 hentered
        have hsorted' : pending.Pairwise (· < ·) := by
          rcases hpending with h | ⟨h, -⟩
          · rw [h] at hsorted
            exact (List.pairwise_cons.1 hsorted).2
          · rw [← h]
            exact hsorted
        obtain ⟨rest, hrs, hopen⟩ := (hstep _ _ _ hsorted').1 (Run.except_bind_eq_ok_iff.1 hrest)
        exact ⟨rest, hrs, pending, hle, hpending, hopen⟩
      · rintro ⟨rest, hrs, pending, hle, hpending, hopen⟩
        have hsorted' : pending.Pairwise (· < ·) := by
          rcases hpending with h | ⟨h, -⟩
          · rw [h] at hsorted
            exact (List.pairwise_cons.1 hsorted).2
          · rw [← h]
            exact hsorted
        refine ⟨(p, [], pending), (enter_idle_eq_ok_iff hcurrent).2 ⟨hle, rfl, rfl, hpending⟩, ?_⟩
        exact Run.except_bind_eq_ok_iff.2 ((hstep _ _ _ hsorted').2 ⟨rest, hrs, hopen⟩)

end Scan

/-! ## Expected offsets -/

theorem eraseRepsBy_loop (a : UInt32) (as acc : List UInt32) :
    List.eraseRepsBy.loop (· == ·) a as acc =
      acc.reverse ++ List.eraseRepsBy.loop (· == ·) a as [] := by
  induction as generalizing a acc with
  | nil => simp [List.eraseRepsBy.loop]
  | cons b as ih =>
    by_cases hab : (a == b) = true
    · simp only [List.eraseRepsBy.loop, hab]
      exact ih a acc
    · simp only [List.eraseRepsBy.loop, hab]
      rw [ih b (a :: acc), ih b [a]]
      simp

/-- In a sorted list, leaving out repetitions leaves out no offset and makes the order strict. -/
theorem eraseRepsBy_loop_spec {a : UInt32} {as : List UInt32} (h : (a :: as).Pairwise (· ≤ ·)) :
    (List.eraseRepsBy.loop (· == ·) a as []).Pairwise (· < ·) ∧
      ∀ x, x ∈ List.eraseRepsBy.loop (· == ·) a as [] ↔ x ∈ a :: as := by
  induction as generalizing a with
  | nil => exact ⟨List.pairwise_singleton _ a, fun x => Iff.rfl⟩
  | cons b as ih =>
    obtain ⟨ha, hrest⟩ := List.pairwise_cons.1 h
    obtain ⟨hb, -⟩ := List.pairwise_cons.1 hrest
    by_cases hab : a = b
    · subst hab
      obtain ⟨hsorted, hmem⟩ := ih hrest
      simp only [List.eraseRepsBy.loop, beq_self_eq_true]
      refine ⟨hsorted, fun x => (hmem x).trans ?_⟩
      simp
    · obtain ⟨hsorted, hmem⟩ := ih hrest
      have hloop : List.eraseRepsBy.loop (· == ·) a (b :: as) [] =
          a :: List.eraseRepsBy.loop (· == ·) b as [] := by
        have hne : (a == b) = false := beq_false_of_ne hab
        simp only [List.eraseRepsBy.loop, hne]
        exact eraseRepsBy_loop b as [a]
      rw [hloop]
      refine ⟨List.pairwise_cons.2 ⟨fun x hx => ?_, hsorted⟩, fun x => ?_⟩
      · have hle : a.toNat ≤ b.toNat := UInt32.le_iff_toNat_le.1 (ha b List.mem_cons_self)
        have hne : a.toNat ≠ b.toNat := fun h => hab (UInt32.toNat_inj.1 h)
        rw [UInt32.lt_iff_toNat_lt]
        rcases List.mem_cons.1 ((hmem x).1 hx) with rfl | hx
        · omega
        · have := UInt32.le_iff_toNat_le.1 (hb x hx)
          omega
      · rw [List.mem_cons, hmem x, ← List.mem_cons]

theorem ascending_spec (offsets : List UInt32) :
    (ascending offsets).Pairwise (· < ·) ∧ ∀ o, o ∈ ascending offsets ↔ o ∈ offsets := by
  have hsorted : (offsets.mergeSort fun a b => decide (a ≤ b)).Pairwise (· ≤ ·) := by
    have htrans : ∀ a b c : UInt32, decide (a ≤ b) = true → decide (b ≤ c) = true →
        decide (a ≤ c) = true := by
      intro a b c hab hbc
      rw [decide_eq_true_eq] at hab hbc ⊢
      exact UInt32.le_trans hab hbc
    have htotal : ∀ a b : UInt32, (decide (a ≤ b) || decide (b ≤ a)) = true := by
      intro a b
      rw [Bool.or_eq_true, decide_eq_true_eq, decide_eq_true_eq]
      exact UInt32.le_total a b
    exact (List.pairwise_mergeSort htrans htotal offsets).imp fun hle => of_decide_eq_true hle
  have hmem : ∀ o, o ∈ (offsets.mergeSort fun a b => decide (a ≤ b)) ↔ o ∈ offsets :=
    fun o => List.mem_mergeSort
  unfold ascending List.eraseReps
  cases hlist : offsets.mergeSort fun a b => decide (a ≤ b) with
  | nil =>
    rw [hlist] at hmem
    exact ⟨List.Pairwise.nil, hmem⟩
  | cons a as =>
    rw [hlist] at hsorted hmem
    obtain ⟨hstrict, hsame⟩ := eraseRepsBy_loop_spec hsorted
    exact ⟨hstrict, fun o => (hsame o).trans (hmem o)⟩

/-! ## Reading -/

theorem lift_close_eq_ok_iff {order : ByteOrder} {p : Nat} {s : Scan} {c c' : Cursor}
    {rs : List (Routine × UInt32)} (hrest : c.rest = []) :
    Reader.lift (s.close p) c = .ok rs c' ↔
      ∃ ops : List Op, c.Passes (ops.flatMap (Op.stored order)) c' ∧ c'.rest = [] ∧
        s.run p ops = .ok rs := by
  rw [Reader.lift_eq_ok_iff]
  constructor
  · rintro ⟨hclose, rfl⟩
    exact ⟨[], Cursor.passes_nil.2 rfl, hrest, hclose⟩
  · rintro ⟨ops, hpass, -, hrun⟩
    cases ops with
    | nil => exact ⟨hrun, Cursor.passes_nil.1 hpass⟩
    | cons o os =>
      have := hpass.1
      rw [hrest, List.flatMap_cons, Op.stored] at this
      cases this

/-- Reading decodes instructions up to the end of the bytes and scans them. -/
theorem readFrom_eq_ok_iff {order : ByteOrder} {base origin fuel : Nat} {s : Scan} {c c' : Cursor}
    {rs : List (Routine × UInt32)} (horigin : origin ≤ c.offset) (hfuel : c.rest.length ≤ fuel) :
    readFrom order (fun c₁ => base + (c₁.offset - origin)) fuel s c = .ok rs c' ↔
      ∃ ops : List Op, c.Passes (ops.flatMap (Op.stored order)) c' ∧ c'.rest = [] ∧
        s.run (base + (c.offset - origin)) ops = .ok rs := by
  induction fuel generalizing s c with
  | zero => exact lift_close_eq_ok_iff (List.length_eq_zero_iff.1 (Nat.le_zero.1 hfuel))
  | succ fuel ih =>
    rw [readFrom]
    by_cases hempty : c.rest.isEmpty = true
    · rw [if_pos hempty]
      exact lift_close_eq_ok_iff (List.isEmpty_iff.1 hempty)
    · rw [if_neg hempty]
      have hread : ∀ o c₁, Reader.nested (Op.read order) c = .ok o c₁ ↔
          True ∧ c.Passes (o.stored order) c₁ :=
        fun o c₁ => (Op.reads order).nested.eq_ok_iff
      -- after an instruction the position has moved on by its size, and fewer bytes are left
      have hnext : ∀ (o : Op) (c₁ : Cursor), c.Passes (o.stored order) c₁ →
          base + (c₁.offset - origin) = base + (c.offset - origin) + o.size ∧
            origin ≤ c₁.offset ∧ c₁.rest.length ≤ fuel := by
        intro o c₁ hpass
        have hlen := congrArg List.length hpass.1
        have hoffset := hpass.2
        have hpos := o.size_pos
        rw [List.length_append] at hlen
        rw [o.length_stored] at hlen hoffset
        omega
      constructor
      · intro h
        cases hentered : s.enter (base + (c.offset - origin)) with
        | error e =>
          simp only [hentered] at h
          cases h
        | ok entry =>
          obtain ⟨start, instrs, pending⟩ := entry
          simp only [hentered] at h
          cases hop : Reader.nested (Op.read order) c with
          | error e c₁ =>
            rw [hop] at h
            cases h
          | ok o c₁ =>
            obtain ⟨-, hpass⟩ := (hread o c₁).1 hop
            obtain ⟨hposition, horigin₁, hfuel₁⟩ := hnext o c₁ hpass
            simp only [hop, hposition] at h
            cases hleft : s.leave start instrs pending o (base + (c.offset - origin) + o.size) with
            | error e =>
              rw [hleft] at h
              cases h
            | ok s' =>
              rw [hleft] at h
              obtain ⟨os, hrest, hend, hrun⟩ := (ih horigin₁ hfuel₁).1 h
              rw [hposition] at hrun
              refine ⟨o :: os, ?_, hend, ?_⟩
              · rw [List.flatMap_cons]
                exact Cursor.passes_append.2 ⟨c₁, hpass, hrest⟩
              · rw [Scan.run, hentered]
                show (s.leave start instrs pending o _ >>= _) = _
                rw [hleft]
                exact hrun
      · rintro ⟨ops, hpass, hend, hrun⟩
        cases ops with
        | nil =>
          rw [Cursor.passes_nil.1 hpass] at hend
          exact absurd (List.isEmpty_iff.2 hend) hempty
        | cons o os =>
          rw [List.flatMap_cons] at hpass
          obtain ⟨c₁, hfirst, hrest⟩ := Cursor.passes_append.1 hpass
          obtain ⟨hposition, horigin₁, hfuel₁⟩ := hnext o c₁ hfirst
          rw [Scan.run, Run.except_bind_eq_ok_iff] at hrun
          obtain ⟨⟨start, instrs, pending⟩, hentered, hrun⟩ := hrun
          obtain ⟨s', hleft, hrun⟩ := Run.except_bind_eq_ok_iff.1 hrun
          rw [← hposition] at hrun hleft
          have hop := (hread o c₁).2 ⟨trivial, hfirst⟩
          simp only [hentered, hop, hleft]
          exact (ih horigin₁ hfuel₁).2 ⟨os, hrest, hend, hrun⟩

end Code

theorem Routine.concrete_iff {r : Routine} : r.Concrete ↔ ∃ ops : List Op, r = ops.map Instr.op := by
  constructor
  · intro h
    induction r with
    | nil => exact ⟨[], rfl⟩
    | cons i r ih =>
      obtain ⟨ops, rfl⟩ := ih fun j hj => h j (List.mem_cons_of_mem _ hj)
      cases i with
      | op o => exact ⟨o :: ops, rfl⟩
      | symbolic s => cases h _ List.mem_cons_self
  · rintro ⟨ops, rfl⟩ i hi
    obtain ⟨o, -, rfl⟩ := List.mem_map.1 hi
    rfl

namespace Code

theorem concrete_iff_exists_flatten {c : Code} :
    c.Concrete ↔ ∃ ops : List Op, ops.map Instr.op = c.routines.flatten := by
  have hflat : c.Concrete ↔ Routine.Concrete c.routines.flatten := by
    constructor
    · intro h i hi
      obtain ⟨r, hr, hi⟩ := List.mem_flatten.1 hi
      exact h r hr i hi
    · intro h r hr i hi
      exact h i (List.mem_flatten.2 ⟨r, hr, hi⟩)
  rw [hflat, Routine.concrete_iff]
  exact exists_congr fun ops => eq_comm

theorem stored_eq_of_flatten {order : ByteOrder} {c : Code} {ops : List Op}
    (h : ops.map Instr.op = c.routines.flatten) :
    c.stored order = ops.flatMap (Op.stored order) := by
  have hflat : c.stored order = c.routines.flatten.flatMap (Instr.stored order) := by
    unfold stored Routine.stored
    induction c.routines with
    | nil => rfl
    | cons r rs ih => rw [List.flatMap_cons, List.flatten_cons, List.flatMap_append, ih]
  rw [hflat, ← h, List.flatMap_map]
  rfl

/-- **Code streams.**  Code is read exactly from its stored form up to the end of the bytes, if its
routines end once, it lies within the offset space, and routines start at all expected offsets. -/
theorem read_eq_ok_iff {order : ByteOrder} {base : UInt32} {expected : List UInt32}
    {c c' : Cursor} {code : Code} :
    Code.read order base expected c = .ok code c' ↔
      (∀ r ∈ code.routines, r.EndsOnce) ∧ code.Concrete ∧ code = code.laidOut base ∧
        base.toNat + code.size ≤ maxOffset ∧ (∀ o ∈ expected, o ∈ code.offsets) ∧
        c.Passes (code.stored order) c' ∧ c'.rest = [] := by
  obtain ⟨hsorted, hmem⟩ := ascending_spec expected
  have hsize : code.size = Routine.size code.routines.flatten := (Routine.size_flatten _).symm
  have hfrom : ∀ rs, readFrom order (fun c₁ => base.toNat + (c₁.offset - c.offset)) c.rest.length
      ⟨ascending expected, [], none⟩ c = .ok rs c' ↔
        ∃ ops : List Op, c.Passes (ops.flatMap (Op.stored order)) c' ∧ c'.rest = [] ∧
          (⟨ascending expected, [], none⟩ : Scan).run (base.toNat + (c.offset - c.offset)) ops = .ok rs :=
    fun rs => readFrom_eq_ok_iff (Nat.le_refl c.offset) (Nat.le_refl c.rest.length)
  unfold Code.read
  rw [Run.bind_eq_ok_iff]
  constructor
  · rintro ⟨rs, c₁, hread, hlast⟩
    obtain ⟨rfl, rfl⟩ := Run.pure_eq_ok_iff.1 hlast
    obtain ⟨ops, hpass, hend, hrun⟩ := (hfrom rs).1 hread
    obtain ⟨rest, hrs, routines, hops, hends, hfits, hpending, rfl⟩ :=
      (Scan.run_eq_ok_iff hsorted).1 hrun
    rw [Nat.sub_self, Nat.add_zero] at hfits hpending hrs
    rw [List.reverse_nil, List.nil_append] at hrs
    have hlen := length_startsFrom base.toNat routines
    have hcode : ofPlaced base rs = (⟨routines, [], [], base⟩ : Code).laidOut base := by
      rw [hrs]
      simp only [ofPlaced, laidOut, List.map_fst_zip (Nat.le_of_eq hlen.symm),
        List.map_snd_zip (Nat.le_of_eq hlen)]
    rw [hcode] at hsize ⊢
    refine ⟨hends, concrete_iff_exists_flatten.2 ⟨ops, hops⟩, rfl, ?_,
      fun o ho => hpending o ((hmem o).2 ho), ?_, hend⟩
    · rw [hsize]
      show base.toNat + Routine.size routines.flatten ≤ maxOffset
      rw [← hops]
      rcases hfits with rfl | hfits
      · have := base.toNat_lt
        simp only [List.map_nil, Routine.size_nil]
        unfold maxOffset
        omega
      · exact hfits
    · rw [stored_eq_of_flatten hops]
      exact hpass
  · rintro ⟨hends, hconcrete, hlaid, hfits, hexpected, hpass, hend⟩
    obtain ⟨ops, hops⟩ := concrete_iff_exists_flatten.1 hconcrete
    have hoffsets : code.offsets = startsFrom base.toNat code.routines := by
      rw [hlaid]
      rfl
    have hlen := length_startsFrom base.toNat code.routines
    refine ⟨code.routines.zip (startsFrom base.toNat code.routines), c',
      (hfrom _).2 ⟨ops, ?_, hend, ?_⟩, ?_⟩
    · rw [← stored_eq_of_flatten hops]
      exact hpass
    · refine (Scan.run_eq_ok_iff hsorted).2 ⟨_, rfl, code.routines, hops, hends, ?_, ?_, ?_⟩
      · rw [Nat.sub_self, Nat.add_zero, hops, ← hsize]
        exact Or.inr hfits
      · intro o ho
        rw [Nat.sub_self, Nat.add_zero, ← hoffsets]
        exact hexpected o ((hmem o).1 ho)
      · rw [Nat.sub_self, Nat.add_zero]
        rfl
    · rw [Run.pure_eq_ok_iff]
      refine ⟨?_, rfl⟩
      conv => lhs; rw [hlaid]
      simp only [ofPlaced, laidOut, List.map_fst_zip (Nat.le_of_eq hlen.symm),
        List.map_snd_zip (Nat.le_of_eq hlen)]

end Code

end ScriptImage
