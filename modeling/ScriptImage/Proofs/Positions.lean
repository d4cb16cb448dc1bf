import ScriptImage.Proofs.HandOff
import ScriptImage.Proofs.Placement
import ScriptImage.Proofs.RunningSums

/-!
# One position, found in four ways

Where an instruction stands is found out four times over: the passes lay all routines out from the
base, a routine counts from its own beginning, a layout stores where each routine starts, and the
writer moves its cursor.  After a layout from a base all four agree:

    positionAt? base rs slot = some (o + d)        o stored for the routine, d within it
    cursor at the instruction = cursor before + (o + d - base)

A displacement that a pass works out is therefore right among the written bytes.
-/

namespace ScriptImage

/-! ## Positions by place -/

theorem Routine.getElem?_positionsFrom (p : Nat) (r : Routine) (n : Nat) :
    (r.positionsFrom p)[n]? = r[n]?.map fun _ => p + size (r.take n) := by
  induction r generalizing p n with
  | nil => rfl
  | cons i r ih =>
    cases n with
    | zero => rfl
    | succ n =>
      rw [positionsFrom, List.getElem?_cons_succ, List.getElem?_cons_succ, ih, List.take_succ_cons,
        size_cons, Nat.add_assoc]

theorem Routine.getElem?_positions {r : Routine} {n : Nat} {i : Instr} (hi : r[n]? = some i) :
    r.positions[n]? = some (size (r.take n)) := by
  rw [positions, getElem?_positionsFrom, hi, Option.map_some, Nat.zero_add]

namespace Targets

variable {p : Int} {rs : List Routine} {slot : Slot} {i : Instr}

theorem getElem?_positions (p : Int) (r : Routine) (n : Nat) :
    (positions p r)[n]? = r[n]?.map fun _ => p + Routine.size (r.take n) := by
  induction r generalizing p n with
  | nil => rfl
  | cons i r ih =>
    cases n with
    | zero =>
      show some p = some (p + ((0 : Nat) : Int))
      exact congrArg some (Int.add_zero p).symm
    | succ n =>
      rw [positions, List.getElem?_cons_succ, List.getElem?_cons_succ, ih, List.take_succ_cons,
        Routine.size_cons, Int.natCast_add, Int.add_assoc]

theorem getElem?_layout (p : Int) (rs : List Routine) (j : Nat) :
    (layout p rs).1[j]? = rs[j]?.map (positions (p + ((rs.take j).map Routine.size).sum)) := by
  induction rs generalizing p j with
  | nil => rfl
  | cons r rs ih =>
    cases j with
    | zero =>
      show some (positions p r) = some (positions (p + ((0 : Nat) : Int)) r)
      exact congrArg (fun q => some (positions q r)) (Int.add_zero p).symm
    | succ j =>
      show (layout (p + r.size) rs).1[j]? = _
      rw [ih, List.getElem?_cons_succ, List.take_succ_cons, List.map_cons, List.sum_cons, Int.natCast_add,
        Int.add_assoc]

/-- The position that a layout gives to the instruction at a place. -/
def positionAt? (p : Int) (rs : List Routine) (slot : Slot) : Option Int :=
  (layout p rs).1[slot.routine]?.bind fun starts => starts[slot.index]?

/-- A layout gives positions to the instructions there are, and to nothing else. -/
theorem positionAt?_eq (p : Int) (rs : List Routine) (slot : Slot) :
    positionAt? p rs slot = (instrAt? rs slot).map fun _ => position p rs slot := by
  unfold positionAt? instrAt? position
  rw [getElem?_layout]
  cases rs[slot.routine]? with
  | none => rfl
  | some r => exact getElem?_positions _ r slot.index

theorem positionAt?_of_instrAt? (hi : instrAt? rs slot = some i) :
    positionAt? p rs slot = some (position p rs slot) := by
  rw [positionAt?_eq, hi, Option.map_some]

end Targets

/-! ## Writing up to a place -/

open Targets (positionAt? layout)

theorem eq_take_cons_drop {α : Type} {l : List α} {x : α} {n : Nat} (h : l[n]? = some x) :
    l = l.take n ++ x :: l.drop (n + 1) := by
  rw [← drop_eq_cons_iff.2 ⟨h, rfl⟩, List.take_append_drop]

/-- A part of a list, told by what the list begins with. -/
theorem take_drop_of_take {α : Type} {l before part rest : List α} {m : Nat}
    (h : l.take m = before ++ (part ++ rest)) : (l.drop before.length).take part.length = part := by
  rw [← List.take_append_drop m l, h, List.append_assoc, List.append_assoc, List.drop_left, List.take_left]

namespace Code

def before (c : Code) (j : Nat) : Code :=
  { c with routines := c.routines.take j }

def behind (c : Code) (j : Nat) : Code :=
  { c with routines := c.routines.drop (j + 1) }

variable {c : Code} {j n : Nat} {r : Routine} {i : Instr}

theorem Concrete.before (h : c.Concrete) (j : Nat) : (c.before j).Concrete :=
  fun r hr => h r (List.mem_of_mem_take hr)

theorem size_eq_of_getElem? (hr : c.routines[j]? = some r) :
    c.size = (c.before j).size + (r.size + (c.behind j).size) := by
  unfold size
  conv => lhs; rw [eq_take_cons_drop hr]
  rw [List.map_append, List.sum_append, List.map_cons, List.sum_cons]
  rfl

/-- The bytes of an instruction among those of the code. -/
theorem stored_eq_of_getElem? (order : ByteOrder) (hr : c.routines[j]? = some r) (hi : r[n]? = some i) :
    c.stored order = ((c.before j).stored order ++ Routine.stored order (r.take n)) ++
      (i.stored order ++ (Routine.stored order (r.drop (n + 1)) ++ (c.behind j).stored order)) := by
  have hroutine : r.stored order = Routine.stored order (r.take n) ++
      (i.stored order ++ Routine.stored order (r.drop (n + 1))) := by
    conv => lhs; rw [eq_take_cons_drop hi]
    rw [Routine.stored, List.flatMap_append, List.flatMap_cons]
    rfl
  unfold stored
  conv => lhs; rw [eq_take_cons_drop hr]
  rw [List.flatMap_append, List.flatMap_cons, hroutine]
  simp only [List.append_assoc]
  rfl

end Code

namespace MachineM

variable {c : Code} {j n : Nat} {r : Routine} {i : Instr} {f : Focus}

theorem writeCode_of_concrete (hc : c.Concrete) (hf : f.Sound) (hw : f.window.readOnly = false)
    (hroom : f.window.offset + c.size ≤ f.window.length) :
    writeCode c f = .ok () (f.write (c.stored f.window.order)) := by
  obtain ⟨hfailure, hbytes⟩ := c.writes f.window.order
  have hrun := ((stores_code f.window.order c).2 f hf rfl hw hroom).1 (hfailure.2 hc)
  rwa [hbytes hc] at hrun

theorem writeRoutine_of_concrete (hr : r.Concrete) (hf : f.Sound) (hw : f.window.readOnly = false)
    (hroom : f.window.offset + r.size ≤ f.window.length) :
    writeRoutine r f = .ok () (f.write (r.stored f.window.order)) := by
  obtain ⟨hfailure, hbytes⟩ := r.writes f.window.order
  have hrun := ((stores_routine f.window.order r).2 f hf rfl hw hroom).1 (hfailure.2 hr)
  rwa [hbytes hr] at hrun

/-- Working through a list comes to each element after those before it. -/
theorem forM_eq_of_getElem? {α : Type} {l : List α} {x : α} (h : l[n]? = some x)
    (act : α → MachineM Unit) : l.forM act = (do
      (l.take n).forM act
      act x
      (l.drop (n + 1)).forM act) := by
  conv => lhs; rw [eq_take_cons_drop h]
  simp only [List.forM_eq_forM, List.forM_append, List.forM_cons]

/-- Writing code puts instruction `n` of routine `j` so many bytes behind the cursor. -/
structure WritesAt (c : Code) (j n : Nat) (r : Routine) (i : Instr) (bytes : Nat) (f : Focus) : Prop where
  /-- Writing comes to the instruction after the routines before its own and, in a window on the rest,
  after the instructions before it. -/
  course : writeCode c = (do
    writeCode (c.before j)
    writeStructure r.size do
      writeRoutine (r.take n)
      writeInstr i
      writeRoutine (r.drop (n + 1))
    writeCode (c.behind j))
  /-- That is where the cursor is by then. -/
  cursor : ∃ g g', writeCode (c.before j) f = .ok () g ∧ writeRoutine (r.take n) g.rest = .ok () g' ∧
    g'.window.buffer = f.window.buffer ∧
    g'.window.start + g'.window.offset = f.window.start + f.window.offset + bytes
  /-- That is where the bytes of the instruction are in the end. -/
  stored : ∃ g, writeCode c f = .ok () g ∧
    ((g.memory.buffer f.window.buffer).drop (f.window.start + f.window.offset + bytes)).take i.size =
      i.stored f.window.order

theorem writeCode_course (hr : c.routines[j]? = some r) (hi : r[n]? = some i) :
    writeCode c = (do
      writeCode (c.before j)
      writeStructure r.size do
        writeRoutine (r.take n)
        writeInstr i
        writeRoutine (r.drop (n + 1))
      writeCode (c.behind j)) := by
  have hroutine : writeRoutine r = (do
      writeRoutine (r.take n)
      writeInstr i
      writeRoutine (r.drop (n + 1))) := forM_eq_of_getElem? hi writeInstr
  rw [← hroutine]
  exact forM_eq_of_getElem? hr fun r => writeStructure r.size (writeRoutine r)

/-- The cursor moves over the routines and instructions that are written before. -/
theorem writeCode_cursor (hr : c.routines[j]? = some r) (hc : c.Concrete) (hf : f.Sound)
    (hw : f.window.readOnly = false) (hroom : f.window.offset + c.size ≤ f.window.length) (n : Nat) :
    ∃ g g', writeCode (c.before j) f = .ok () g ∧ writeRoutine (r.take n) g.rest = .ok () g' ∧
      g'.window.buffer = f.window.buffer ∧
      g'.window.start + g'.window.offset =
        f.window.start + f.window.offset + ((c.before j).size + Routine.size (r.take n)) := by
  have hbefore : (c.before j).Concrete := hc.before j
  have hlength := (c.before j).length_stored f.window.order hbefore
  have htotal := c.size_eq_of_getElem? hr
  -- the routines before
  have hfirst := writeCode_of_concrete hbefore hf hw (by omega)
  have hfirstRoom : f.window.offset + ((c.before j).stored f.window.order).length ≤ f.window.length := by
    omega
  have hg := (hf.follows_write hfirstRoom).sound hf
  generalize hwritten : f.write ((c.before j).stored f.window.order) = g at hfirst hg
  have hwindow : g.window = { f.window with offset := f.window.offset + (c.before j).size } := by
    rw [← hwritten, ← hlength]
    rfl
  -- the instructions before, in the window on the rest
  have htake : Routine.Concrete (r.take n) :=
    fun i hi => hc r (List.mem_of_getElem? hr) i (List.mem_of_mem_take hi)
  have hle : Routine.size (r.take n) ≤ r.size := by
    have h := Code.sum_take_le (r.map Instr.size) n
    rwa [← List.map_take] at h
  have hrestOnly : g.rest.window.readOnly = false := by
    rw [g.readOnly_rest, hwindow]
    exact hw
  have hrestRoom : g.rest.window.offset + Routine.size (r.take n) ≤ g.rest.window.length := by
    show 0 + Routine.size (r.take n) ≤ g.window.length - g.window.offset
    rw [hwindow]
    dsimp only
    omega
  have hsecond := writeRoutine_of_concrete htake hg.rest hrestOnly hrestRoom
  refine ⟨g, _, hfirst, hsecond, ?_, ?_⟩
  · show g.window.buffer = f.window.buffer
    rw [hwindow]
  · show g.window.start + g.window.offset +
      (0 + (Routine.stored g.rest.window.order (r.take n)).length) = _
    rw [Routine.length_stored _ htake, hwindow]
    dsimp only
    omega

theorem writeCode_stored (hr : c.routines[j]? = some r) (hi : r[n]? = some i) (hc : c.Concrete)
    (hf : f.Sound) (hw : f.window.readOnly = false)
    (hroom : f.window.offset + c.size ≤ f.window.length) :
    ∃ g, writeCode c f = .ok () g ∧
      ((g.memory.buffer f.window.buffer).drop (f.window.start + f.window.offset +
        ((c.before j).size + Routine.size (r.take n)))).take i.size = i.stored f.window.order := by
  refine ⟨_, writeCode_of_concrete hc hf hw hroom, ?_⟩
  have hrange := hf.window.range
  have hcode := c.length_stored f.window.order hc
  have hr' : r.Concrete := hc r (List.mem_of_getElem? hr)
  have hbefore : ((c.before j).stored f.window.order ++ Routine.stored f.window.order (r.take n)).length =
      (c.before j).size + Routine.size (r.take n) := by
    rw [List.length_append, (c.before j).length_stored _ (hc.before j),
      Routine.length_stored _ fun i hi => hr' i (List.mem_of_mem_take hi)]
  have hinstr := i.length_stored f.window.order (hr' i (List.mem_of_getElem? hi))
  have hsplit := c.stored_eq_of_getElem? f.window.order hr hi
  rw [← List.drop_drop, ← hbefore, ← hinstr]
  -- the bytes of the code are those that were stored from the cursor on
  have hbuffer : f.window.start + f.window.offset + (c.stored f.window.order).length ≤
      (f.memory.buffer f.window.buffer).length := by omega
  exact take_drop_of_take ((Memory.take_drop_store hbuffer).trans hsplit)

end MachineM

/-! ## All four agree -/

/-- Layout, routines, stored offsets and the writer tell the same position of every instruction. -/
structure Code.PositionsAgree (c : Code) (base : UInt32) : Prop where
  /-- The position in the layout is the offset of the routine and the position in it. -/
  position : ∀ {j n : Nat} {r : Routine} {i : Instr}, c.routines[j]? = some r → r[n]? = some i →
    ∃ o d, c.offsetOf? j = some o ∧ r.positions[n]? = some d ∧
      positionAt? base.toNat c.routines ⟨j, n⟩ = some ((o.toNat + d : Nat) : Int)
  finish : (layout base.toNat c.routines).2 = ((base.toNat + c.size : Nat) : Int)
  endOffset : c.endOffset.toNat = base.toNat + c.size
  /-- The writer puts the instruction where the layout says, counted from the base. -/
  written : c.Concrete → ∀ {j n : Nat} {r : Routine} {i : Instr}, c.routines[j]? = some r →
    r[n]? = some i → ∃ bytes : Nat,
      positionAt? base.toNat c.routines ⟨j, n⟩ = some ((base.toNat : Int) + bytes) ∧
      ∀ f : Focus, f.Sound → f.window.readOnly = false →
        f.window.offset + c.size ≤ f.window.length → MachineM.WritesAt c j n r i bytes f

theorem Code.RunningSums.positionsAgree {c c' : Code} {base : UInt32} (h : RunningSums c base c') :
    c'.PositionsAgree base := by
  have hsize : c'.size = c.size := by rw [size, h.routines, size]
  have hat : ∀ {j n : Nat} {r : Routine} {i : Instr}, c'.routines[j]? = some r → r[n]? = some i →
      positionAt? base.toNat c'.routines ⟨j, n⟩ =
        some ((base.toNat : Int) + (((c'.before j).size + Routine.size (r.take n) : Nat) : Int)) := by
    intro j n r i hr hi
    have hinstr : instrAt? c'.routines ⟨j, n⟩ = some i := by rw [instrAt?_of_getElem? hr, hi]
    rw [Targets.positionAt?_of_instrAt? hinstr, position_of_getElem? hr, Int.natCast_add, Int.add_assoc]
    rfl
  constructor
  · intro j n r i hr hi
    obtain ⟨o, ho, hstart⟩ := h.offset j (by
      rw [← h.routines]
      exact (List.getElem?_eq_some_iff.1 hr).1)
    refine ⟨o, _, ho, Routine.getElem?_positions hi, ?_⟩
    have hstart' : o.toNat = base.toNat + (c'.before j).size := by
      rw [hstart, startOf, ← h.routines]
      rfl
    rw [hat hr hi, hstart']
    congr 1
    omega
  · rw [Targets.layout_finish, Int.natCast_add]
    rfl
  · rw [h.endOffset, hsize]
  · intro hc j n r i hr hi
    refine ⟨_, hat hr hi, fun f hf hw hroom => ⟨?_, ?_, ?_⟩⟩
    · exact MachineM.writeCode_course hr hi
    · exact MachineM.writeCode_cursor hr hc hf hw hroom n
    · exact MachineM.writeCode_stored hr hi hc hf hw hroom

/-- **One position, found in four ways.**  After a layout from a base, the position of every instruction
in a layout of the routines is the stored offset of its routine and its position there, the end is
the base and the total size, and the writer puts every instruction at its position counted from the
base. -/
theorem Code.layOut_positionsAgree {c c' : Code} {base : UInt32} (h : c.layOut base = .ok c') :
    c'.routines = c.routines ∧ c'.PositionsAgree base := by
  have hsums := (layOut_runningSums c base).2.1 c' h
  exact ⟨hsums.routines, hsums.positionsAgree⟩

/-- Two routines, the second with an instruction of two bytes in its middle. -/
def twoRoutines : Code :=
  { Code.empty 0 with
    routines := [[.op ⟨.pushInt32, ((5 : Int32), ())⟩, .op .endRoutine],
      [.op ⟨.nop, ()⟩, .op ⟨.pushInt8, ((7 : Int8), ())⟩, .op .endRoutine]] }

/-- The instruction in the middle of the second routine is at 107, which is 1 behind the offset of the
routine, and is written 7 bytes behind the cursor, wherever that is. -/
theorem twoRoutines_positionsAgree :
    twoRoutines.layOut 100 = .ok (twoRoutines.laidOut 100) ∧
      (twoRoutines.laidOut 100).PositionsAgree 100 ∧ (twoRoutines.laidOut 100).Concrete ∧
      positionAt? 100 twoRoutines.routines ⟨1, 1⟩ = some 107 ∧
      (twoRoutines.laidOut 100).offsetOf? 1 = some 106 ∧
      ∀ f : Focus, f.Sound → f.window.readOnly = false → f.window.offset + 10 ≤ f.window.length →
        MachineM.WritesAt (twoRoutines.laidOut 100) 1 1
          [.op ⟨.nop, ()⟩, .op ⟨.pushInt8, ((7 : Int8), ())⟩, .op .endRoutine]
          (.op ⟨.pushInt8, ((7 : Int8), ())⟩) 7 f := by
  have hlaid : twoRoutines.layOut 100 = .ok (twoRoutines.laidOut 100) := rfl
  have hconcrete : (twoRoutines.laidOut 100).Concrete := by decide +kernel
  have hposition : positionAt? 100 twoRoutines.routines ⟨1, 1⟩ = some 107 := by decide +kernel
  obtain ⟨-, hagree⟩ := Code.layOut_positionsAgree hlaid
  obtain ⟨bytes, hbytes, hwritten⟩ := hagree.written hconcrete (j := 1) (n := 1) rfl rfl
  have hseven : (100 : Int) + bytes = 107 := Option.some.inj (hbytes.symm.trans hposition)
  obtain rfl : bytes = 7 := by omega
  exact ⟨hlaid, hagree, hconcrete, hposition, rfl, hwritten⟩

end ScriptImage
