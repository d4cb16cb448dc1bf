import Mathlib.Data.List.SplitBy
import ScriptImage.Proofs.Handles
import ScriptImage.Proofs.RoundTrip

/-!
# The grammar of code streams

A code stream is a sequence of instructions that is empty or closes with an end instruction;
its routines are what remains when it is cut after every end instruction.  Here the reader of
code is described on that level, without the routines it builds up:

    Code.read order base expected c = .ok code c' ↔
      ∃ ops, IsStream order base expected c.rest ops ∧
        code = ofStream base ops ∧ c' = ⟨c.length, []⟩        (read_eq_ok_iff_isStream)

The reader never sees the whole stream: it drops expected offsets one by one from a sorted list
while it decodes, and reports a miss wherever it notices it.  The grammar says what all these
checks come to: each expected offset is a start, that is, the base or the position after an end
instruction, and something follows it.
-/

namespace ScriptImage

namespace Code

/-! ## Closed streams -/

/-- Whether a stream is empty or closes with an end instruction. -/
def Closed (ops : List Op) : Prop :=
  ops = [] ∨ ops.getLast? = some .endRoutine

/-- A stream cut after every end instruction. -/
def cut (ops : List Op) : List Routine :=
  (ops.splitBy fun o _ => !o.isEnd).map fun os => os.map Instr.op

theorem Closed.append {before after : List Op} (hbefore : Closed before) (hafter : Closed after) :
    Closed (before ++ after) := by
  rcases hafter with rfl | hlast
  · rw [List.append_nil]
    exact hbefore
  · right
    rw [List.getLast?_append, hlast]
    rfl

theorem Closed.right {before after : List Op} (h : Closed (before ++ after)) : Closed after := by
  rcases h with hnil | hlast
  · exact Or.inl (List.append_eq_nil_iff.1 hnil).2
  · rw [List.getLast?_append] at hlast
    cases hafter : after.getLast? with
    | none => exact Or.inl (List.getLast?_eq_none_iff.1 hafter)
    | some o =>
      rw [hafter] at hlast
      exact Or.inr (hafter.trans hlast)

theorem flatten_cut (ops : List Op) : (cut ops).flatten = ops.map Instr.op := by
  rw [cut, ← List.map_flatten, List.flatten_splitBy]

/-- Cutting does not look past an end instruction. -/
theorem cut_append {before : List Op} (h : Closed before) (after : List Op) :
    cut (before ++ after) = cut before ++ cut after := by
  unfold cut
  rw [List.splitBy_append, List.map_append]
  intro o ho o' _
  rcases h with rfl | hlast
  · cases ho
  · obtain rfl : Op.endRoutine = o := Option.some.inj (hlast.symm.trans ho)
    rfl

theorem closed_of_endsOnce {ops : List Op} (h : Routine.EndsOnce (ops.map Instr.op)) :
    Closed ops := by
  have hlast := h.2
  rw [List.getLast?_map] at hlast
  obtain ⟨o, ho, heq⟩ := Option.map_eq_some_iff.1 hlast
  rw [Instr.op.inj heq] at ho
  exact Or.inr ho

/-- Nothing is cut off within a routine that ends once. -/
theorem cut_of_endsOnce {ops : List Op} (h : Routine.EndsOnce (ops.map Instr.op)) :
    cut ops = [ops.map Instr.op] := by
  have hne : ops ≠ [] := by
    rintro rfl
    exact Routine.not_endsOnce_nil h
  have hchain : ops.IsChain fun o _ => (!o.isEnd) = true := by
    clear hne
    induction ops with
    | nil => exact List.isChain_nil
    | cons o os ih =>
      by_cases hend : o.isEnd = true
      · obtain rfl := Op.isEnd_iff.1 hend
        rw [List.map_cons, Routine.endsOnce_cons_end, List.map_eq_nil_iff] at h
        rw [h]
        exact List.isChain_singleton _
      · have hne : Instr.op o ≠ .op .endRoutine := fun heq => hend (Op.isEnd_iff.2 (Instr.op.inj heq))
        rw [List.map_cons, Routine.endsOnce_cons hne] at h
        exact List.isChain_cons.2 ⟨fun _ _ => by simpa using hend, ih h⟩
  rw [cut, List.splitBy_of_isChain hne hchain]
  rfl

/-- The only way to take a stream apart into routines that end once is to cut it. -/
theorem cut_eq_of_flatten {ops : List Op} {rs : List Routine} (hends : ∀ r ∈ rs, r.EndsOnce)
    (hops : ops.map Instr.op = rs.flatten) : Closed ops ∧ cut ops = rs := by
  induction rs generalizing ops with
  | nil =>
    obtain rfl := List.map_eq_nil_iff.1 hops
    exact ⟨Or.inl rfl, rfl⟩
  | cons r rs ih =>
    rw [List.flatten_cons] at hops
    obtain ⟨os, os', rfl, rfl, hrest⟩ := List.map_eq_append_iff.1 hops
    have hr : Routine.EndsOnce (os.map Instr.op) := hends _ List.mem_cons_self
    obtain ⟨hclosed, hcut⟩ := ih (fun r' hr' => hends r' (List.mem_cons_of_mem _ hr')) hrest
    refine ⟨(closed_of_endsOnce hr).append hclosed, ?_⟩
    rw [cut_append (closed_of_endsOnce hr), cut_of_endsOnce hr, hcut]
    rfl

example : cut [⟨.pushTrue, ()⟩, .endRoutine, .endRoutine] =
    [[.op ⟨.pushTrue, ()⟩, .op .endRoutine], [.op .endRoutine]] := rfl

theorem exists_flatten_of_closed {ops : List Op} (h : Closed ops) :
    ∃ rs : List Routine, (∀ r ∈ rs, r.EndsOnce) ∧ ops.map Instr.op = rs.flatten := by
  induction ops with
  | nil => exact ⟨[], fun r hr => absurd hr List.not_mem_nil, rfl⟩
  | cons o os ih =>
    have hos : Closed ([o] ++ os) := h
    obtain ⟨rs, hends, hflat⟩ := ih hos.right
    by_cases hend : o.isEnd = true
    · obtain rfl := Op.isEnd_iff.1 hend
      refine ⟨[.op .endRoutine] :: rs, fun r hr => ?_, ?_⟩
      · rcases List.mem_cons.1 hr with rfl | hr
        · exact Routine.endsOnce_cons_end.2 rfl
        · exact hends r hr
      · rw [List.map_cons, hflat]
        rfl
    · have hne : Instr.op o ≠ .op .endRoutine := fun heq => hend (Op.isEnd_iff.2 (Instr.op.inj heq))
      -- the instruction belongs to the first routine of the rest, and there is one
      cases rs with
      | nil =>
        obtain rfl := List.map_eq_nil_iff.1 hflat
        rcases h with hnil | hlast
        · cases hnil
        · exact absurd (congrArg Instr.op (Option.some.inj hlast)) hne
      | cons r rs =>
        refine ⟨(.op o :: r) :: rs, fun r' hr' => ?_, ?_⟩
        · rcases List.mem_cons.1 hr' with rfl | hr'
          · exact (Routine.endsOnce_cons hne).2 (hends r List.mem_cons_self)
          · exact hends r' (List.mem_cons_of_mem _ hr')
        · rw [List.map_cons, hflat]
          rfl

theorem exists_first_routine {ops : List Op} (h : Closed ops) (hne : ops ≠ []) :
    ∃ os after, ops = os ++ after ∧ Routine.EndsOnce (os.map Instr.op) := by
  obtain ⟨rs, hends, hflat⟩ := exists_flatten_of_closed h
  cases rs with
  | nil => exact absurd (List.map_eq_nil_iff.1 hflat) hne
  | cons r rs =>
    obtain ⟨os, after, rfl, rfl, -⟩ := List.map_eq_append_iff.1 hflat
    exact ⟨os, after, rfl, hends _ List.mem_cons_self⟩

theorem endsOnce_of_mem_cut {ops : List Op} (h : Closed ops) : ∀ r ∈ cut ops, r.EndsOnce := by
  obtain ⟨rs, hends, hflat⟩ := exists_flatten_of_closed h
  rw [(cut_eq_of_flatten hends hflat).2]
  exact hends

/-! ## Starts of routines -/

/-- The total size of instructions. -/
def streamSize (ops : List Op) : Nat :=
  (ops.map Op.size).sum

/-- Whether an offset is the start of a routine of a stream that lies from a position on: that
position or the one after an end instruction, if instructions follow it. -/
def StartsAt (p : Nat) (ops : List Op) (offset : UInt32) : Prop :=
  ∃ before after, ops = before ++ after ∧ Closed before ∧ after ≠ [] ∧
    offset.toNat = p + streamSize before

theorem streamSize_append (ops ops' : List Op) :
    streamSize (ops ++ ops') = streamSize ops + streamSize ops' := by
  unfold streamSize
  rw [List.map_append, List.sum_append]

theorem size_map_op (ops : List Op) : Routine.size (ops.map Instr.op) = streamSize ops := by
  unfold Routine.size streamSize
  rw [List.map_map]
  rfl

theorem length_stored_stream (order : ByteOrder) (ops : List Op) :
    (ops.flatMap (Op.stored order)).length = streamSize ops :=
  length_flatMap_stored fun o _ => o.length_stored order

theorem sum_size_eq_streamSize {ops : List Op} {rs : List Routine}
    (h : ops.map Instr.op = rs.flatten) : (rs.map Routine.size).sum = streamSize ops := by
  rw [← Routine.size_flatten, ← h, size_map_op]

/-- A routine lies where the routines before it end. -/
theorem mem_zip_startsFrom_iff {p : Nat} {rs : List Routine} {r : Routine} {offset : UInt32} :
    (r, offset) ∈ rs.zip (startsFrom p rs) ↔ ∃ front back, rs = front ++ r :: back ∧
      offset = UInt32.ofNat (p + (front.map Routine.size).sum) := by
  induction rs generalizing p with
  | nil => simp
  | cons r' rs ih =>
    rw [startsFrom, List.zip_cons_cons, List.mem_cons, ih, Prod.mk.injEq]
    constructor
    · rintro (⟨rfl, rfl⟩ | ⟨front, back, rfl, rfl⟩)
      · exact ⟨[], rs, rfl, rfl⟩
      · refine ⟨r' :: front, back, rfl, ?_⟩
        rw [List.map_cons, List.sum_cons, Nat.add_assoc]
    · rintro ⟨front, back, hrs, rfl⟩
      cases front with
      | nil =>
        obtain ⟨rfl, rfl⟩ := List.cons.inj hrs
        exact Or.inl ⟨rfl, rfl⟩
      | cons r'' front =>
        obtain ⟨rfl, rfl⟩ := List.cons.inj hrs
        refine Or.inr ⟨front, back, rfl, ?_⟩
        rw [List.map_cons, List.sum_cons, Nat.add_assoc]

/-! ## The code of a stream -/

/-- The code of a stream. -/
def ofStream (base : UInt32) (ops : List Op) : Code :=
  (⟨cut ops, [], [], base⟩ : Code).laidOut base

theorem size_ofStream (base : UInt32) (ops : List Op) : (ofStream base ops).size = streamSize ops :=
  sum_size_eq_streamSize (flatten_cut ops).symm

section Places

variable {base : UInt32} {ops : List Op} (hclosed : Closed ops)
  (hfits : base.toNat + streamSize ops ≤ maxOffset)

include hclosed hfits

/-- A routine of a stream follows a closed stream and ends once. -/
theorem mem_placed_ofStream_iff {r : Routine} {offset : UInt32} :
    (r, offset) ∈ (ofStream base ops).placed ↔ ∃ before os after, ops = before ++ (os ++ after) ∧
      Closed before ∧ r = os.map Instr.op ∧ r.EndsOnce ∧
        offset.toNat = base.toNat + streamSize before := by
  have hplaced : (ofStream base ops).placed = (cut ops).zip (startsFrom base.toNat (cut ops)) := rfl
  rw [hplaced, mem_zip_startsFrom_iff]
  constructor
  · rintro ⟨front, back, hcut, rfl⟩
    have hends := endsOnce_of_mem_cut hclosed
    have hflat := flatten_cut ops
    rw [hcut] at hends
    rw [hcut, List.flatten_append, List.flatten_cons] at hflat
    obtain ⟨before, rest, rfl, hbefore, hrest⟩ := List.map_eq_append_iff.1 hflat.symm
    obtain ⟨os, after, rfl, rfl, -⟩ := List.map_eq_append_iff.1 hrest
    have hfront : ∀ r ∈ front, r.EndsOnce := fun r hr => hends r (List.mem_append_left _ hr)
    have hr := hends _ (List.mem_append_right front List.mem_cons_self)
    refine ⟨before, os, after, rfl, (cut_eq_of_flatten hfront hbefore).1, rfl, hr, ?_⟩
    rw [streamSize_append] at hfits
    rw [sum_size_eq_streamSize hbefore, toNat_ofNat_of_le (by omega)]
  · rintro ⟨before, os, after, rfl, hbefore, rfl, hends, hoffset⟩
    refine ⟨cut before, cut after, ?_, ?_⟩
    · rw [cut_append hbefore, cut_append (closed_of_endsOnce hends), cut_of_endsOnce hends]
      rfl
    · rw [sum_size_eq_streamSize (flatten_cut before).symm, ← hoffset, UInt32.ofNat_toNat]

/-- The stored offsets of a stream are its starts. -/
theorem mem_offsets_ofStream_iff {offset : UInt32} :
    offset ∈ (ofStream base ops).offsets ↔ StartsAt base.toNat ops offset := by
  have hsnd : (ofStream base ops).placed.map Prod.snd = (ofStream base ops).offsets :=
    List.map_snd_zip (Nat.le_of_eq (length_startsFrom _ _))
  rw [← hsnd, List.mem_map]
  constructor
  · rintro ⟨⟨r, offset⟩, hmem, rfl⟩
    obtain ⟨before, os, after, rfl, hbefore, rfl, hends, hoffset⟩ :=
      (mem_placed_ofStream_iff hclosed hfits).1 hmem
    refine ⟨before, os ++ after, rfl, hbefore, fun hnil => ?_, hoffset⟩
    obtain ⟨rfl, -⟩ := List.append_eq_nil_iff.1 hnil
    exact Routine.not_endsOnce_nil hends
  · rintro ⟨before, after, rfl, hbefore, hafter, hoffset⟩
    obtain ⟨os, after, rfl, hends⟩ := exists_first_routine hclosed.right hafter
    exact ⟨(os.map Instr.op, offset), (mem_placed_ofStream_iff hclosed hfits).2
      ⟨before, os, after, rfl, hbefore, rfl, hends, hoffset⟩, rfl⟩

end Places

/-! ## Reading a stream -/

/-- What bytes have to be for a reader that starts at an offset and expects routines at others:
complete instructions, closed, within the offset space, with the expected starts. -/
structure IsStream (order : ByteOrder) (base : UInt32) (expected : List UInt32) (bytes : List UInt8)
    (ops : List Op) : Prop where
  stored : bytes = ops.flatMap (Op.stored order)
  closed : Closed ops
  fits : base.toNat + bytes.length ≤ maxOffset
  starts : ∀ offset ∈ expected, StartsAt base.toNat ops offset

theorem IsStream.fits_size {order : ByteOrder} {base : UInt32} {expected : List UInt32}
    {bytes : List UInt8} {ops : List Op} (h : IsStream order base expected bytes ops) :
    base.toNat + streamSize ops ≤ maxOffset := by
  have hfits := h.fits
  rw [h.stored, length_stored_stream] at hfits
  exact hfits

/-- **The reader accepts its grammar**, and what it reads is the cut stream. -/
theorem read_eq_ok_iff_isStream {order : ByteOrder} {base : UInt32} {expected : List UInt32}
    {c c' : Cursor} {code : Code} :
    Code.read order base expected c = .ok code c' ↔
      ∃ ops, IsStream order base expected c.rest ops ∧ code = ofStream base ops ∧
        c' = ⟨c.length, []⟩ := by
  rw [read_eq_ok_iff]
  constructor
  · rintro ⟨hends, hconcrete, hlaid, hfits, hexpected, hpass, hend⟩
    obtain ⟨ops, hops⟩ := concrete_iff_exists_flatten.1 hconcrete
    obtain ⟨hclosed, hcut⟩ := cut_eq_of_flatten hends hops
    have hcode : code = ofStream base ops := by
      rw [ofStream, hcut]
      exact hlaid
    have hbytes : c.rest = ops.flatMap (Op.stored order) := by
      rw [hpass.1, hend, List.append_nil, stored_eq_of_flatten hops]
    have hsize : base.toNat + streamSize ops ≤ maxOffset := by
      rw [← size_ofStream base ops, ← hcode]
      exact hfits
    refine ⟨ops, ⟨hbytes, hclosed, ?_, fun offset ho => ?_⟩, hcode, ?_⟩
    · rw [hbytes, length_stored_stream]
      exact hsize
    · rw [← mem_offsets_ofStream_iff hclosed hsize, ← hcode]
      exact hexpected offset ho
    · obtain ⟨offset, rest⟩ := c'
      have hoffset : offset = c.offset + (code.stored order).length := hpass.2
      obtain rfl : rest = [] := hend
      rw [hoffset, Cursor.length, hpass.1, List.append_nil]
  · rintro ⟨ops, h, rfl, rfl⟩
    have hflat : ops.map Instr.op = (ofStream base ops).routines.flatten := (flatten_cut ops).symm
    refine ⟨endsOnce_of_mem_cut h.closed, concrete_iff_exists_flatten.2 ⟨ops, hflat⟩, rfl, ?_,
      fun offset ho => ?_, ⟨?_, ?_⟩, rfl⟩
    · rw [size_ofStream]
      exact h.fits_size
    · exact (mem_offsets_ofStream_iff h.closed h.fits_size).2 (h.starts offset ho)
    · rw [h.stored, stored_eq_of_flatten hflat, List.append_nil]
    · rw [stored_eq_of_flatten hflat, ← h.stored]
      rfl

/-- **Reading code.**  Bytes are read as code exactly if they are complete instructions, none or the
last of which ends a routine, that lie within the offset space and start a routine at every
expected offset.  The routines are then the stream cut after every end instruction, they lie at
the running positions, offsets lead back to them, and no bytes are left.  For whole files this
makes verification a comparison: it asks that every function and method has a stored offset. -/
theorem read_iff_grammar (order : ByteOrder) (base : UInt32) (expected : Option (List UInt32))
    (c : Cursor) :
    ((∃ code c', Code.read order base (expected.getD []) c = .ok code c') ↔
      ∃ ops, IsStream order base (expected.getD []) c.rest ops) ∧
    (∀ code c', Code.read order base (expected.getD []) c = .ok code c' →
      ∃ ops, IsStream order base (expected.getD []) c.rest ops ∧ code.routines = cut ops ∧
        code.base = base ∧ code.BackToBack base.toNat ∧
        (∀ offset id, code.at? offset = some id ↔ code.offsetOf? id = some offset) ∧
        c' = ⟨c.length, []⟩) ∧
    ∀ order? bytes image, Image.decode ⟨order?, true⟩ bytes = .ok image ↔
      Image.decode ⟨order?, false⟩ bytes = .ok image ∧
        ∀ offset ∈ image.header.starts, offset ∈ image.code.offsets := by
  simp only [read_eq_ok_iff_isStream]
  refine ⟨⟨?_, ?_⟩, ?_, ?_⟩
  · rintro ⟨code, c', ops, h, -⟩
    exact ⟨ops, h⟩
  · rintro ⟨ops, h⟩
    exact ⟨_, _, ops, h, rfl, rfl⟩
  · rintro code c' ⟨ops, h, rfl, rfl⟩
    have hfits : base.toNat + (⟨cut ops, [], [], base⟩ : Code).size ≤ maxOffset := by
      have hsize := h.fits_size
      rw [← size_ofStream base ops] at hsize
      exact hsize
    have hsizes : ∀ r ∈ cut ops, r.size ≠ 0 := fun r hr =>
      Nat.ne_of_gt (endsOnce_of_mem_cut h.closed r hr).size_pos
    exact ⟨ops, h, rfl, rfl, backToBack_laidOut hfits, fun _ _ => at?_laidOut_iff hsizes hfits, rfl⟩
  · intro order? bytes image
    rw [Image.decode_eq_ok_iff, Image.decode_eq_ok_iff]
    constructor
    · rintro ⟨horder, hwf, hbytes⟩
      exact ⟨⟨horder, { hwf with starts := fun h => absurd h Bool.false_ne_true }, hbytes⟩, hwf.starts rfl⟩
    · rintro ⟨⟨horder, hwf, hbytes⟩, hstarts⟩
      exact ⟨horder, { hwf with starts := fun _ => hstarts }, hbytes⟩

/-- The stream of the sample's code, with its starts expected out of order and twice. -/
theorem read_iff_grammar_sample :
    IsStream .big 41 [43, 41, 43] (Image.sample.code.stored .big)
        [⟨.pushTrue, ()⟩, .endRoutine, .newObject 0, .endRoutine] ∧
      ∃ code, Code.read .big 41 [43, 41, 43] ⟨41, Image.sample.code.stored .big⟩ =
          .ok code ⟨47, []⟩ ∧ code.BackToBack 41 := by
  have hstream : IsStream .big 41 [43, 41, 43] (Image.sample.code.stored .big)
      [⟨.pushTrue, ()⟩, .endRoutine, .newObject 0, .endRoutine] := by
    refine ⟨rfl, Or.inr rfl, by decide, fun offset ho => ?_⟩
    have hfirst : StartsAt 41 [⟨.pushTrue, ()⟩, .endRoutine, .newObject 0, .endRoutine] 41 :=
      ⟨[], _, rfl, Or.inl rfl, List.cons_ne_nil _ _, rfl⟩
    have hsecond : StartsAt 41 [⟨.pushTrue, ()⟩, .endRoutine, .newObject 0, .endRoutine] 43 :=
      ⟨[⟨.pushTrue, ()⟩, .endRoutine], [.newObject 0, .endRoutine], rfl, Or.inr rfl,
        List.cons_ne_nil _ _, rfl⟩
    simp only [List.mem_cons, List.not_mem_nil, or_false] at ho
    rcases ho with rfl | rfl | rfl
    · exact hsecond
    · exact hfirst
    · exact hsecond
  have h := read_iff_grammar .big 41 (some [43, 41, 43]) ⟨41, Image.sample.code.stored .big⟩
  obtain ⟨code, c', hread⟩ := h.1.2 ⟨_, hstream⟩
  obtain ⟨_, -, -, -, hlaid, -, rfl⟩ := h.2.1 code c' hread
  exact ⟨hstream, code, hread, hlaid⟩

end Code

end ScriptImage
