import ScriptImage.Proofs.ShortInput
import ScriptImage.Proofs.StreamGrammar

/-!
# Code streams that are cut short

Instructions form a prefix code, so the front of a stream has only one reading.  Where it ends
decides what the reader of code makes of it:

* inside an instruction: the reader asks for bytes that are missing  (fallsShort_read_take)
* between two instructions: the reader ends in a state, which is final or not, and the error is
  one about routines if it is not                                    (read_take_boundary)
* after an end instruction, or before all: code is read, if no start is expected from there on
                                                                     (read_take_eq_ok_iff)

The places are given twice, by the routines of the code and their offsets (`EndsRoutine`,
`InsideRoutine`, `InsideInstr`), and by the instructions before them.
-/

namespace ScriptImage

open Reader (FallsShort)

/-! ## Instructions are a prefix code -/

/-- No stored instruction is the front of another. -/
theorem Op.eq_of_stored_append {order : ByteOrder} {o o' : Op} {bs bs' : List UInt8}
    (h : o.stored order ++ bs = o'.stored order ++ bs') : o = o' ∧ bs = bs' := by
  have hread : ∀ (x : Op) (rest : List UInt8), Op.read order ⟨0, x.stored order ++ rest⟩ =
      .ok x ⟨(x.stored order).length, rest⟩ :=
    fun x rest => (Op.reads order).eq_ok_iff.2 ⟨trivial, rfl, (Nat.zero_add _).symm⟩
  have hsame := hread o bs
  rw [h, hread o' bs'] at hsame
  cases hsame
  exact ⟨rfl, rfl⟩

namespace Code

theorem flatMap_stored_eq_nil {order : ByteOrder} {ops : List Op}
    (h : ops.flatMap (Op.stored order) = []) : ops = [] := by
  cases ops with
  | nil => rfl
  | cons o os =>
    rw [List.flatMap_cons, Op.stored] at h
    cases h

/-- Instructions at the front of a stored stream are the first ones of the stream. -/
theorem eq_append_of_flatMap_stored {order : ByteOrder} {ops ops' : List Op} {rest : List UInt8}
    (h : ops.flatMap (Op.stored order) = ops'.flatMap (Op.stored order) ++ rest) :
    ∃ after, ops = ops' ++ after ∧ rest = after.flatMap (Op.stored order) := by
  induction ops' generalizing ops with
  | nil => exact ⟨ops, rfl, h.symm⟩
  | cons o' os' ih =>
    cases ops with
    | nil =>
      rw [List.flatMap_cons, Op.stored] at h
      cases h
    | cons o os =>
      rw [List.flatMap_cons, List.flatMap_cons, List.append_assoc] at h
      obtain ⟨rfl, hos⟩ := Op.eq_of_stored_append h
      obtain ⟨after, rfl, hrest⟩ := ih hos
      exact ⟨after, rfl, hrest⟩

/-! ## Where a stream can be cut -/

theorem streamSize_cons (o : Op) (os : List Op) : streamSize (o :: os) = o.size + streamSize os :=
  rfl

theorem streamSize_pos {ops : List Op} (h : ops ≠ []) : 0 < streamSize ops := by
  cases ops with
  | nil => exact absurd rfl h
  | cons o os =>
    have := o.size_pos
    rw [streamSize_cons]
    omega

/-- A position within a stream falls on one of its instructions. -/
theorem exists_instr_at {ops : List Op} {k : Nat} (hk : k < streamSize ops) :
    ∃ before o after j, ops = before ++ o :: after ∧ j < o.size ∧ k = streamSize before + j := by
  induction ops generalizing k with
  | nil => exact absurd hk (Nat.not_lt_zero k)
  | cons o os ih =>
    rw [streamSize_cons] at hk
    by_cases hlt : k < o.size
    · exact ⟨[], o, os, k, rfl, hlt, (Nat.zero_add k).symm⟩
    · obtain ⟨before, o', after, j, rfl, hj, hkj⟩ := ih (k := k - o.size) (by omega)
      refine ⟨o :: before, o', after, j, rfl, hj, ?_⟩
      rw [streamSize_cons]
      omega

theorem take_flatMap_stored (order : ByteOrder) (before after : List Op) (j : Nat) :
    ((before ++ after).flatMap (Op.stored order)).take (streamSize before + j) =
      before.flatMap (Op.stored order) ++ (after.flatMap (Op.stored order)).take j := by
  rw [List.flatMap_append, ← length_stored_stream order before, List.take_length_add_append]

/-! ## Reading up to a cut -/

/-- A stream can be scanned to its end. -/
theorem IsStream.exists_run {order : ByteOrder} {base : UInt32} {expected : List UInt32}
    {bytes : List UInt8} {ops : List Op} (h : IsStream order base expected bytes ops) :
    ∃ rs, (⟨ascending expected, [], none⟩ : Scan).run base.toNat ops = .ok rs := by
  have hread : Code.read order base expected ⟨0, bytes⟩ = .ok (ofStream base ops) ⟨0 + bytes.length, []⟩ :=
    read_eq_ok_iff_isStream.2 ⟨ops, h, rfl, rfl⟩
  unfold Code.read at hread
  obtain ⟨rs, c₁, hfrom, -⟩ := Run.bind_eq_ok_iff.1 hread
  obtain ⟨ops', hpass, hend, hrun⟩ :=
    (readFrom_eq_ok_iff (Nat.zero_le 0) (Nat.le_refl bytes.length)).1 hfrom
  have hbytes := hpass.1
  rw [hend, h.stored] at hbytes
  obtain ⟨after, rfl, hnil⟩ := eq_append_of_flatMap_stored hbytes
  rw [flatMap_stored_eq_nil hnil.symm, List.append_nil]
  exact ⟨rs, hrun⟩

/-- The first instructions of a stream that can be scanned are read, whatever bytes follow them,
and the scan can go on with the rest. -/
theorem readFrom_passes {order : ByteOrder} {base origin offset fuel : Nat} {s : Scan}
    {before after : List Op} {tail : List UInt8} {rs : List (Routine × UInt32)}
    (horigin : origin ≤ offset) (hfuel : (before.flatMap (Op.stored order) ++ tail).length ≤ fuel)
    (hrun : s.run (base + (offset - origin)) (before ++ after) = .ok rs) :
    ∃ s' fuel', tail.length ≤ fuel' ∧
      s'.run (base + (offset + streamSize before - origin)) after = .ok rs ∧
      readFrom order (fun c => base + (c.offset - origin)) fuel s
          ⟨offset, before.flatMap (Op.stored order) ++ tail⟩ =
        readFrom order (fun c => base + (c.offset - origin)) fuel' s'
          ⟨offset + streamSize before, tail⟩ := by
  -- by induction on what has been passed; entering and leaving an instruction cannot fail, since
  -- they do not in the scan of the whole stream
  induction before generalizing s offset fuel with
  | nil => exact ⟨s, fuel, hfuel, hrun, rfl⟩
  | cons o os ih =>
    rw [List.flatMap_cons, List.append_assoc, List.length_append, o.length_stored] at hfuel
    rw [List.cons_append, Scan.run, Run.except_bind_eq_ok_iff] at hrun
    obtain ⟨⟨start, instrs, pending⟩, hentered, hrun⟩ := hrun
    obtain ⟨s₁, hleft, hrun⟩ := Run.except_bind_eq_ok_iff.1 hrun
    have hposition : base + (offset - origin) + o.size = base + (offset + o.size - origin) := by omega
    rw [hposition] at hleft hrun
    have hpos := o.size_pos
    obtain ⟨fuel, rfl⟩ : ∃ n, fuel = n + 1 := ⟨fuel - 1, by omega⟩
    have horigin' : origin ≤ offset + o.size := by omega
    have hfuel' : (os.flatMap (Op.stored order) ++ tail).length ≤ fuel := by omega
    obtain ⟨s', fuel', htail, hrun', heq⟩ := ih horigin' hfuel' hrun
    have hop : Reader.nested (Op.read order)
        ⟨offset, (o :: os).flatMap (Op.stored order) ++ tail⟩ =
        .ok o ⟨offset + o.size, os.flatMap (Op.stored order) ++ tail⟩ := by
      refine (Op.reads order).nested.eq_ok_iff.2 ⟨trivial, ?_, ?_⟩
      · rw [List.flatMap_cons, List.append_assoc]
      · rw [o.length_stored]
    have hnonempty : ((o :: os).flatMap (Op.stored order) ++ tail).isEmpty = false := by
      rw [List.flatMap_cons, Op.stored]
      rfl
    rw [streamSize_cons, ← Nat.add_assoc]
    refine ⟨s', fuel', htail, hrun', ?_⟩
    rw [← heq, readFrom]
    simp only [hnonempty, hentered, hop, hleft, Bool.false_eq_true, if_false]

section Outcomes

variable {order : ByteOrder} {base : UInt32} {expected : List UInt32} {bytes : List UInt8}
  {ops before after : List Op}

/-- What is left to do when the instructions before a cut have been read. -/
theorem IsStream.read_take (h : IsStream order base expected bytes (before ++ after)) (j p : Nat) :
    ∃ s fuel rs, ((after.flatMap (Op.stored order)).take j).length ≤ fuel ∧
      Scan.run s (base.toNat + streamSize before) after = .ok rs ∧
      Code.read order base expected ⟨p, bytes.take (streamSize before + j)⟩ =
        (do
          let rs ← readFrom order (fun c => base.toNat + (c.offset - p)) fuel s
          return ofPlaced base rs : Reader Code)
          ⟨p + streamSize before, (after.flatMap (Op.stored order)).take j⟩ := by
  obtain ⟨rs, hrun⟩ := h.exists_run
  have hbase : base.toNat = base.toNat + (p - p) := by omega
  rw [hbase] at hrun
  obtain ⟨s, fuel, hfuel, hrun', heq⟩ := readFrom_passes (Nat.le_refl p)
    (Nat.le_refl (before.flatMap (Op.stored order) ++
      (after.flatMap (Op.stored order)).take j).length) hrun
  rw [Nat.add_sub_cancel_left] at hrun'
  refine ⟨s, fuel, rs, hfuel, hrun', ?_⟩
  rw [h.stored, take_flatMap_stored]
  show EStateM.bind _ _ _ = EStateM.bind _ _ _
  unfold EStateM.bind
  rw [← heq]

/-- A reader that is stopped inside an instruction asks for the rest of it. -/
theorem fallsShort_read_take {o : Op} {j : Nat}
    (h : IsStream order base expected bytes (before ++ o :: after)) (hpos : 0 < j) (hj : j < o.size)
    (p : Nat) : FallsShort (Code.read order base expected) ⟨p, bytes.take (streamSize before + j)⟩ := by
  obtain ⟨s, fuel, rs, hfuel, hrun, heq⟩ := h.read_take j p
  have hlen := o.length_stored order
  have htail : ((o :: after).flatMap (Op.stored order)).take j = (o.stored order).take j := by
    rw [List.flatMap_cons, List.take_append_of_le_length (by omega)]
  rw [htail] at hfuel heq
  rw [List.length_take] at hfuel
  obtain ⟨fuel, rfl⟩ : ∃ n, fuel = n + 1 := ⟨fuel - 1, by omega⟩
  rw [Scan.run, Run.except_bind_eq_ok_iff] at hrun
  obtain ⟨⟨start, instrs, pending⟩, hentered, -⟩ := hrun
  obtain ⟨e, c', he, hkind⟩ := (Op.streams order).nested.fallsShort_take (Op.reads order).nested
    trivial (by omega : j < (o.stored order).length) (p + streamSize before)
  have hnonempty : ((o.stored order).take j).isEmpty = false := by
    rw [List.isEmpty_eq_false_iff, ← List.length_pos_iff, List.length_take]
    omega
  refine ⟨e, c', heq.trans (Run.bind_of_error ?_), hkind⟩
  rw [readFrom]
  simp only [hnonempty, Nat.add_sub_cancel_left, hentered, he, Bool.false_eq_true, if_false]

theorem Scan.close_cases (s : Scan) (p : Nat) :
    (∃ rs, s.close p = .ok rs) ∨ ∃ e, s.close p = .error e ∧ e.kind = .subroutine := by
  obtain ⟨pending, finished, current⟩ := s
  cases current with
  | some c => exact Or.inr ⟨_, rfl, rfl⟩
  | none =>
    cases pending with
    | nil => exact Or.inl ⟨_, rfl⟩
    | cons next rest => exact Or.inr ⟨_, rfl, rfl⟩

/-- A reader that is stopped between instructions has code, or has a complaint about routines. -/
theorem read_take_boundary (h : IsStream order base expected bytes (before ++ after)) (p : Nat) :
    (∃ code c', Code.read order base expected ⟨p, bytes.take (streamSize before)⟩ = .ok code c') ∨
      ∃ e c', Code.read order base expected ⟨p, bytes.take (streamSize before)⟩ = .error e c' ∧
        e.kind = .subroutine := by
  obtain ⟨s, fuel, rs, -, -, heq⟩ := h.read_take 0 p
  rw [List.take_zero, Nat.add_zero] at heq
  rw [heq]
  have hlast : ∀ position : Cursor → Nat, ∀ c : Cursor, c.rest = [] →
      readFrom order position fuel s c = Reader.lift (s.close (position c)) c := by
    intro position c hc
    cases fuel with
    | zero => rfl
    | succ fuel => rw [readFrom, hc, List.isEmpty_nil, if_pos rfl]
  rcases s.close_cases (base.toNat + (p + streamSize before - p)) with ⟨rs', hclose⟩ | ⟨e, hclose, hkind⟩
  · exact Or.inl ⟨_, _, (Run.bind_of_ok ((hlast _ _ rfl).trans (by rw [hclose]; rfl))).trans rfl⟩
  · exact Or.inr ⟨e, _, Run.bind_of_error ((hlast _ _ rfl).trans (by rw [hclose]; rfl)), hkind⟩

variable (after) in
/-- The starts of the front of a stream are those of the stream that lie before the cut. -/
theorem startsAt_append_iff {p : Nat} {offset : UInt32} (hbefore : Closed before) :
    StartsAt p before offset ↔
      StartsAt p (before ++ after) offset ∧ offset.toNat < p + streamSize before := by
  constructor
  · rintro ⟨front, back, rfl, hfront, hback, hoffset⟩
    have hpos := streamSize_pos hback
    rw [streamSize_append]
    refine ⟨⟨front, back ++ after, List.append_assoc .., hfront, ?_, hoffset⟩, by omega⟩
    intro hnil
    exact hback (List.append_eq_nil_iff.1 hnil).1
  · rintro ⟨⟨front, back, hsplit, hfront, -, hoffset⟩, hlt⟩
    rcases List.append_eq_append_iff.1 hsplit with ⟨middle, rfl, -⟩ | ⟨middle, rfl, -⟩
    · rw [streamSize_append] at hoffset
      omega
    · refine ⟨front, middle, rfl, hfront, ?_, hoffset⟩
      rintro rfl
      rw [List.append_nil] at hlt
      omega

/-- **Reading the front of a stream** succeeds exactly after a closed part of the stream, if all
expected starts lie before the cut, and gives the code of that part. -/
theorem read_take_eq_ok_iff {k p : Nat} {code : Code} {c' : Cursor}
    (h : IsStream order base expected bytes ops) (hk : k ≤ bytes.length) :
    Code.read order base expected ⟨p, bytes.take k⟩ = .ok code c' ↔
      ∃ before after, ops = before ++ after ∧ Closed before ∧ k = streamSize before ∧
        (∀ offset ∈ expected, offset.toNat < base.toNat + k) ∧ code = ofStream base before ∧
        c' = ⟨p + k, []⟩ := by
  have hlen : (bytes.take k).length = k := List.length_take_of_le hk
  rw [read_eq_ok_iff_isStream]
  constructor
  · rintro ⟨before, hbefore, rfl, rfl⟩
    have htake : bytes.take k = before.flatMap (Op.stored order) := hbefore.stored
    have hbytes := h.stored.symm.trans (List.take_append_drop k bytes).symm
    rw [htake] at hbytes
    obtain ⟨after, rfl, -⟩ := eq_append_of_flatMap_stored hbytes
    have hsize : k = streamSize before := by
      rw [← hlen, htake, length_stored_stream]
    refine ⟨before, after, rfl, hbefore.closed, hsize, fun offset ho => ?_, rfl, ?_⟩
    · rw [hsize]
      exact ((startsAt_append_iff after hbefore.closed).1 (hbefore.starts offset ho)).2
    · rw [Cursor.length]
      simp only [hlen]
  · rintro ⟨before, after, rfl, hbefore, rfl, hlt, rfl, rfl⟩
    refine ⟨before, ⟨?_, hbefore, ?_, fun offset ho => ?_⟩, rfl, ?_⟩
    · have htake := take_flatMap_stored order before after 0
      rw [Nat.add_zero, List.take_zero, List.append_nil] at htake
      show bytes.take (streamSize before) = _
      rw [h.stored, htake]
    · have := h.fits
      show base.toNat + (bytes.take (streamSize before)).length ≤ maxOffset
      omega
    · exact (startsAt_append_iff after hbefore).2 ⟨h.starts offset ho, hlt offset ho⟩
    · rw [Cursor.length]
      simp only [hlen]

end Outcomes

/-! ## Places by routine -/

/-- A routine ends at the position. -/
def EndsRoutine (c : Code) (n : Nat) : Prop :=
  ∃ e ∈ c.placed, n = e.2.toNat + e.1.size

/-- The position is between two instructions of a routine. -/
def InsideRoutine (c : Code) (n : Nat) : Prop :=
  ∃ e ∈ c.placed, ∃ front back, e.1 = front ++ back ∧ front ≠ [] ∧ back ≠ [] ∧
    n = e.2.toNat + Routine.size front

/-- The position is inside an instruction of a routine. -/
def InsideInstr (c : Code) (n : Nat) : Prop :=
  ∃ e ∈ c.placed, ∃ front i back, e.1 = front ++ i :: back ∧
    e.2.toNat + Routine.size front < n ∧ n < e.2.toNat + Routine.size front + i.size

theorem endsOnce_append_iff {os os' : List Op} (h : os' ≠ []) :
    Routine.EndsOnce ((os ++ os').map Instr.op) ↔
      .endRoutine ∉ os ∧ Routine.EndsOnce (os'.map Instr.op) := by
  induction os with
  | nil => simp
  | cons o os ih =>
    rw [List.cons_append, List.map_cons, List.mem_cons, not_or]
    by_cases hend : o = .endRoutine
    · subst hend
      rw [Routine.endsOnce_cons_end, List.map_eq_nil_iff, List.append_eq_nil_iff]
      constructor
      · rintro ⟨-, hnil⟩
        exact absurd hnil h
      · rintro ⟨⟨hne, -⟩, -⟩
        exact absurd rfl hne
    · rw [Routine.endsOnce_cons fun heq => hend (Instr.op.inj heq), ih]
      exact ⟨fun ⟨hos, hos'⟩ => ⟨⟨Ne.symm hend, hos⟩, hos'⟩, fun ⟨⟨_, hos⟩, hos'⟩ => ⟨hos, hos'⟩⟩

/-- A stream is a closed stream and an open part, which holds no end instruction. -/
theorem exists_open_part (ops : List Op) :
    ∃ before os, ops = before ++ os ∧ Closed before ∧ .endRoutine ∉ os := by
  induction ops using List.reverseRecOn with
  | nil => exact ⟨[], [], rfl, Or.inl rfl, List.not_mem_nil⟩
  | append_singleton ops o ih =>
    by_cases hend : o = .endRoutine
    · subst hend
      refine ⟨ops ++ [.endRoutine], [], (List.append_nil _).symm, Or.inr ?_, List.not_mem_nil⟩
      rw [List.getLast?_append]
      rfl
    · obtain ⟨before, os, rfl, hbefore, hos⟩ := ih
      refine ⟨before, os ++ [o], List.append_assoc .., hbefore, fun hmem => ?_⟩
      rcases List.mem_append.1 hmem with hmem | hmem
      · exact hos hmem
      · exact hend (List.mem_singleton.1 hmem).symm

theorem eq_nil_of_closed_append {before os : List Op} (h : Closed (before ++ os))
    (hos : .endRoutine ∉ os) : os = [] := by
  rcases h.right with hnil | hlast
  · exact hnil
  · exact absurd (List.mem_of_getLast? hlast) hos

/-- The routine that an instruction of a closed stream belongs to. -/
theorem exists_routine_around {before after : List Op} {o : Op} (h : Closed (before ++ o :: after)) :
    ∃ front os os' back, before = front ++ os ∧ after = os' ++ back ∧ Closed front ∧
      .endRoutine ∉ os ∧ Routine.EndsOnce ((os ++ o :: os').map Instr.op) := by
  obtain ⟨front, os, rfl, hfront, hos⟩ := exists_open_part before
  obtain ⟨first, back, hsplit, hfirst⟩ := exists_first_routine h.right (List.cons_ne_nil o after)
  cases first with
  | nil => exact absurd hfirst Routine.not_endsOnce_nil
  | cons o' os' =>
    obtain ⟨rfl, rfl⟩ := List.cons.inj hsplit
    exact ⟨front, os, os', back, rfl, rfl, hfront, hos,
      (endsOnce_append_iff (List.cons_ne_nil o os')).2 ⟨hos, hfirst⟩⟩

section Places

variable {base : UInt32} {ops : List Op} {n : Nat} (hclosed : Closed ops)
  (hfits : base.toNat + streamSize ops ≤ maxOffset)

include hclosed hfits

theorem endsRoutine_iff :
    n = base.toNat ∨ (ofStream base ops).EndsRoutine n ↔
      ∃ before after, ops = before ++ after ∧ Closed before ∧ n = base.toNat + streamSize before := by
  constructor
  · rintro (rfl | ⟨⟨r, offset⟩, he, rfl⟩)
    · exact ⟨[], ops, rfl, Or.inl rfl, rfl⟩
    · obtain ⟨before, os, after, rfl, hbefore, rfl, hends, hoffset⟩ :=
        (mem_placed_ofStream_iff hclosed hfits).1 he
      refine ⟨before ++ os, after, (List.append_assoc ..).symm,
        hbefore.append (closed_of_endsOnce hends), ?_⟩
      simp only [hoffset, size_map_op, streamSize_append, Nat.add_assoc]
  · rintro ⟨before, after, rfl, hbefore, rfl⟩
    -- the closed part is empty or has a last routine, around its last instruction
    rcases List.eq_nil_or_concat before with rfl | ⟨before, o, rfl⟩
    · exact Or.inl rfl
    · rw [List.concat_eq_append] at hclosed hbefore hfits ⊢
      obtain ⟨front, os, os', back, rfl, hback, hfront, -, hends⟩ := exists_routine_around hbefore
      obtain ⟨rfl, rfl⟩ := List.append_eq_nil_iff.1 hback.symm
      refine Or.inr ⟨((os ++ [o]).map Instr.op, UInt32.ofNat (base.toNat + streamSize front)),
        (mem_placed_ofStream_iff hclosed hfits).2 ⟨front, os ++ [o], after, ?_, hfront, rfl, hends, ?_⟩, ?_⟩
      · simp
      · rw [streamSize_append, streamSize_append, streamSize_append] at hfits
        exact toNat_ofNat_of_le (by omega)
      · rw [streamSize_append, streamSize_append, streamSize_append] at hfits
        simp only [toNat_ofNat_of_le (by omega : base.toNat + streamSize front ≤ maxOffset), size_map_op,
          streamSize_append, Nat.add_assoc]

theorem insideRoutine_iff :
    (ofStream base ops).InsideRoutine n ↔
      ∃ before o after, ops = before ++ o :: after ∧ ¬Closed before ∧
        n = base.toNat + streamSize before := by
  constructor
  · rintro ⟨⟨r, offset⟩, he, front, back, hr, hfront, hback, rfl⟩
    obtain ⟨before, os, after, rfl, hbefore, rfl, hends, hoffset⟩ :=
      (mem_placed_ofStream_iff hclosed hfits).1 he
    obtain ⟨os, os', rfl, rfl, rfl⟩ := List.map_eq_append_iff.1 hr
    cases os' with
    | nil => exact absurd rfl hback
    | cons o os' =>
      refine ⟨before ++ os, o, os' ++ after, by simp, fun h => ?_, ?_⟩
      · have hnot := ((endsOnce_append_iff (List.cons_ne_nil o os')).1 hends).1
        obtain rfl := eq_nil_of_closed_append h hnot
        exact hfront rfl
      · simp only [hoffset, size_map_op, streamSize_append, Nat.add_assoc]
  · rintro ⟨before, o, after, rfl, hopen, rfl⟩
    obtain ⟨front, os, os', back, rfl, rfl, hfront, -, hends⟩ := exists_routine_around hclosed
    rw [streamSize_append, streamSize_append] at hfits
    have hoffset := toNat_ofNat_of_le (by omega : base.toNat + streamSize front ≤ maxOffset)
    refine ⟨((os ++ o :: os').map Instr.op, UInt32.ofNat (base.toNat + streamSize front)),
      (mem_placed_ofStream_iff hclosed ?_).2 ⟨front, os ++ o :: os', back, by simp, hfront, rfl, hends, hoffset⟩,
      os.map Instr.op, (o :: os').map Instr.op, List.map_append, ?_, List.cons_ne_nil _ _, ?_⟩
    · rw [streamSize_append, streamSize_append]
      exact hfits
    · rintro hnil
      obtain rfl := List.map_eq_nil_iff.1 hnil
      rw [List.append_nil] at hopen
      exact hopen hfront
    · simp only [hoffset, size_map_op, streamSize_append, Nat.add_assoc]

theorem insideInstr_iff :
    (ofStream base ops).InsideInstr n ↔
      ∃ before o after j, ops = before ++ o :: after ∧ 0 < j ∧ j < o.size ∧
        n = base.toNat + (streamSize before + j) := by
  constructor
  · rintro ⟨⟨r, offset⟩, he, front, i, back, hr, hlow, hhigh⟩
    obtain ⟨before, os, after, rfl, hbefore, rfl, -, hoffset⟩ :=
      (mem_placed_ofStream_iff hclosed hfits).1 he
    obtain ⟨os, rest, rfl, rfl, hrest⟩ := List.map_eq_append_iff.1 hr
    obtain ⟨o, os', rfl, rfl, rfl⟩ := List.map_eq_cons_iff.1 hrest
    simp only [hoffset, size_map_op] at hlow hhigh
    have hsize : (Instr.op o).size = o.size := rfl
    refine ⟨before ++ os, o, os' ++ after, n - (base.toNat + streamSize before + streamSize os),
      by simp, by omega, by omega, ?_⟩
    rw [streamSize_append]
    omega
  · rintro ⟨before, o, after, j, rfl, hpos, hj, rfl⟩
    obtain ⟨front, os, os', back, rfl, rfl, hfront, -, hends⟩ := exists_routine_around hclosed
    rw [streamSize_append, streamSize_append] at hfits
    have hoffset := toNat_ofNat_of_le (by omega : base.toNat + streamSize front ≤ maxOffset)
    refine ⟨((os ++ o :: os').map Instr.op, UInt32.ofNat (base.toNat + streamSize front)),
      (mem_placed_ofStream_iff hclosed ?_).2 ⟨front, os ++ o :: os', back, by simp, hfront, rfl, hends, hoffset⟩,
      os.map Instr.op, .op o, os'.map Instr.op, List.map_append, ?_, ?_⟩
    · rw [streamSize_append, streamSize_append]
      exact hfits
    · simp only [hoffset, size_map_op, streamSize_append]
      omega
    · have hsize : (Instr.op o).size = o.size := rfl
      simp only [hoffset, size_map_op, streamSize_append, hsize]
      omega

end Places

theorem startsFrom_append (p : Nat) (rs rs' : List Routine) :
    startsFrom p (rs ++ rs') = startsFrom p rs ++ startsFrom (p + (rs.map Routine.size).sum) rs' := by
  induction rs generalizing p with
  | nil => rfl
  | cons r rs ih =>
    rw [List.cons_append, startsFrom, startsFrom, ih, List.map_cons, List.sum_cons, Nat.add_assoc]
    rfl

/-- The routines that start before a position, with their offsets. -/
def placedBefore (c : Code) (n : Nat) : List (Routine × UInt32) :=
  c.placed.filter fun e => decide (e.2.toNat < n)

/-- The code of the front of a stream has the routines that start before the cut. -/
theorem placedBefore_ofStream_append {base : UInt32} {before after : List Op}
    (hbefore : Closed before) (hfits : base.toNat + streamSize (before ++ after) ≤ maxOffset) :
    (ofStream base (before ++ after)).placedBefore (base.toNat + streamSize before) =
      (ofStream base before).placed := by
  have hsum := sum_size_eq_streamSize (flatten_cut before).symm
  rw [streamSize_append] at hfits
  have hplaced : (ofStream base (before ++ after)).placed = (ofStream base before).placed ++
      (cut after).zip (startsFrom (base.toNat + streamSize before) (cut after)) := by
    simp only [placed, ofStream, laidOut, cut_append hbefore, startsFrom_append, hsum]
    exact List.zip_append (length_startsFrom _ _).symm
  have hfront : ∀ e ∈ (ofStream base before).placed,
      decide (e.2.toNat < base.toNat + streamSize before) = true := by
    rintro ⟨r, offset⟩ he
    obtain ⟨front, os, back, rfl, -, rfl, hends, hoffset⟩ :=
      (mem_placed_ofStream_iff hbefore (by omega)).1 he
    have hpos := hends.size_pos
    rw [size_map_op] at hpos
    rw [decide_eq_true_eq, hoffset, streamSize_append, streamSize_append]
    omega
  have hback : ∀ e ∈ (cut after).zip (startsFrom (base.toNat + streamSize before) (cut after)),
      ¬decide (e.2.toNat < base.toNat + streamSize before) = true := by
    rintro ⟨r, offset⟩ he
    have hle := le_of_mem_startsFrom (by
      rw [sum_size_eq_streamSize (flatten_cut after).symm]
      omega) (List.of_mem_zip he).2
    rw [decide_eq_true_eq]
    exact Nat.not_lt.2 hle
  rw [placedBefore, hplaced, List.filter_append, List.filter_eq_self.2 hfront, List.filter_eq_nil_iff.2 hback,
    List.append_nil]

end Code

end ScriptImage
