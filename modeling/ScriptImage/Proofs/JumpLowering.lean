import ScriptImage.Proofs.JumpPasses

/-!
# References to jump markers become distances

When markers of jumps are removed, each reference gives way to the distance from the end of the
jump that it feeds to the marker, plus the adjustment.  `Lowerable` says, place by place, when
there is such a distance for every reference, however the code has come about:

    (∃ answer, remove base rs = .ok answer) ↔ Lowerable base rs

The markers go, everything else stays in order, and the jump goes to where the marker stood:

    position base rs' jump' + size + d = position base rs marker + adjust

where `jump'` is the place of the jump after the removal.
-/

namespace ScriptImage.Jumps

open Targets

/-- The position after the jump at a place. -/
def jumpEnd (base : UInt32) (rs : List Routine) (jump : Slot) : Int :=
  position base.toNat rs jump + Opcode.jumpRelative.size

/-- What it takes to replace references by distances. -/
structure Lowerable (base : UInt32) (rs : List Routine) : Prop where
  /-- No two jump markers share an identifier. -/
  distinct : (Routine.ids Instr.jumpId? rs).Nodup
  /-- Every reference feeds a jump. -/
  feeds : ∀ push target adjust, instrAt? rs push = some (.symbolic (.jumpPush target adjust)) →
    ∃ jump, Feeds rs push jump
  /-- Every reference leads to a marker. The destination is not past the end of the code, and a 32-bit
  word holds the distance from the jump to it. -/
  leads : ∀ push target adjust jump, instrAt? rs push = some (.symbolic (.jumpPush target adjust)) →
    Feeds rs push jump → ∃ marker, instrAt? rs marker = some (.symbolic (.jumpTarget target)) ∧
      position base.toNat rs marker + adjust.toNat ≤ finish base.toNat rs ∧
      -2 ^ 31 ≤ position base.toNat rs marker + adjust.toNat - jumpEnd base rs jump ∧
      position base.toNat rs marker + adjust.toNat - jumpEnd base rs jump < 2 ^ 31

def lowered (d : Slot → Int32) (slot : Slot) : Instr → Instr
  | .symbolic (.jumpPush _ _) => .op (.pushInt32 (d slot))
  | i => i

variable {base : UInt32} {rs : List Routine}

theorem lowered_of_ne (d : Slot → Int32) (slot : Slot) {i : Instr} (h : i.isReference = false) :
    lowered d slot i = i := by
  unfold lowered
  split
  · cases h
  · rfl

/-- What the instructions of the code by itself can refer to. -/
def frames (base : UInt32) (rs : List Routine) : Int → Routine → Frame :=
  (Image.bare base rs).frame

theorem jumpEnd_eq {a : Place} {jump : Slot} (ha : a ∈ places 0 base.toNat rs)
    (h : Feeds rs a.slot jump) :
    jumpEnd base rs jump = a.position + a.instr.size + Opcode.jumpRelative.size := by
  rw [jumpEnd, h.position_eq (instrAt?_of_mem_places ha), position_of_mem_places ha]

/-- A reference stands for the distance from the end of its jump to the destination. -/
theorem denotes_iff (hdistinct : (Routine.ids Instr.jumpId? rs).Nodup) {a : Place}
    (ha : a ∈ places 0 base.toNat rs) {target adjust : UInt32}
    (hi : a.instr = .symbolic (.jumpPush target adjust)) {j : Nat} {d : Int32} :
    Denotes (frameAt (frames base rs) base.toNat rs j) a.position a.rest.feedsJump a.instr (.pushInt32 d) ↔
      ∃ jump marker, Feeds rs a.slot jump ∧
        instrAt? rs marker = some (.symbolic (.jumpTarget target)) ∧
        position base.toNat rs marker + adjust.toNat ≤ finish base.toNat rs ∧
        jumpEnd base rs jump + d.toInt = position base.toNat rs marker + adjust.toNat := by
  have hsize : (a.instr.size : Int) = Opcode.pushInt32.size := by rw [hi]; rfl
  have hnodup : ((markers base.toNat rs).map Prod.fst).Nodup := by rwa [map_fst_markers]
  constructor
  · intro h
    rw [hi] at h
    obtain ⟨target', adjust', q, d', heq, hfeeds, hmark, hend, hsum, hop⟩ := h.jump_of_subject rfl
    cases heq
    cases hop
    obtain ⟨jump, hjump⟩ := (feedsJump_rest_iff ha).1 hfeeds
    have hmem : (target, q) ∈ markers base.toNat rs := mem_of_lookup hmark
    obtain ⟨marker, hmarker, rfl⟩ := mem_markers_iff.1 hmem
    refine ⟨jump, marker, hjump, hmarker, hend, ?_⟩
    rw [jumpEnd_eq ha hjump]
    omega
  · rintro ⟨jump, marker, hjump, hmarker, hend, hsum⟩
    rw [jumpEnd_eq ha hjump] at hsum
    rw [hi]
    refine Denotes.jump rfl ((feedsJump_rest_iff ha).2 ⟨jump, hjump⟩) ?_ hend (by omega)
    exact (lookup_eq_some_iff_mem hnodup).2 (mem_markers_iff.2 ⟨marker, hmarker, rfl⟩)

/-- Code is lowerable exactly if every reference stands for a distance. -/
theorem lowerable_iff : Lowerable base rs ↔ (Routine.ids Instr.jumpId? rs).Nodup ∧
    ∀ a ∈ places 0 base.toNat rs, a.instr.isReference = true → ∃ d,
      Denotes (frameAt (frames base rs) base.toNat rs a.slot.routine) a.position a.rest.feedsJump a.instr
        (.pushInt32 d) := by
  constructor
  · intro h
    refine ⟨h.distinct, fun a ha hi => ?_⟩
    obtain ⟨target, adjust, hi⟩ := Instr.exists_of_isReference hi
    have hinstr : instrAt? rs a.slot = some (.symbolic (.jumpPush target adjust)) := by
      rw [instrAt?_of_mem_places ha, hi]
    obtain ⟨jump, hjump⟩ := h.feeds _ _ _ hinstr
    obtain ⟨marker, hmarker, hend, hlow, hhigh⟩ := h.leads _ _ _ _ hinstr hjump
    refine ⟨Int32.ofInt (position base.toNat rs marker + adjust.toNat - jumpEnd base rs jump), ?_⟩
    refine (denotes_iff h.distinct ha hi).2 ⟨jump, marker, hjump, hmarker, hend, ?_⟩
    rw [Int32.toInt_ofInt_of_le (by omega) (by omega)]
    omega
  · rintro ⟨hdistinct, h⟩
    have hdenotes : ∀ {push target adjust},
        instrAt? rs push = some (.symbolic (.jumpPush target adjust)) → ∃ d : Int32, ∃ jump marker,
          Feeds rs push jump ∧ instrAt? rs marker = some (.symbolic (.jumpTarget target)) ∧
          position base.toNat rs marker + adjust.toNat ≤ finish base.toNat rs ∧
          jumpEnd base rs jump + d.toInt = position base.toNat rs marker + adjust.toNat := by
      intro push target adjust hpush
      obtain ⟨a, ha, rfl, hi⟩ := exists_place base.toNat hpush
      obtain ⟨d, hd⟩ := h a ha (by rw [hi]; rfl)
      exact ⟨d, (denotes_iff hdistinct ha hi).1 hd⟩
    refine ⟨hdistinct, fun push target adjust hpush => ?_, fun push target adjust jump hpush hjump => ?_⟩
    · obtain ⟨d, jump, marker, hjump, -⟩ := hdenotes hpush
      exact ⟨jump, hjump⟩
    · obtain ⟨d, jump', marker, hjump', hmarker, hend, hsum⟩ := hdenotes hpush
      obtain rfl := hjump'.unique hjump
      have hlow := d.le_toInt
      have hhigh := d.toInt_lt
      exact ⟨marker, hmarker, hend, by omega, by omega⟩

/-- The answer of a removal whose references stand for the distances `d`. -/
theorem remove_of_denotes (hdistinct : (Routine.ids Instr.jumpId? rs).Nodup) {d : Slot → Int32}
    (h : ∀ a ∈ places 0 base.toNat rs, a.instr.isReference = true →
      Denotes (frameAt (frames base rs) base.toNat rs a.slot.routine) a.position a.rest.feedsJump a.instr
        (.pushInt32 (d a.slot))) :
    remove base rs = .ok (rs.flatten.countP Instr.isReference,
      (replaceAll (lowered d) 0 rs).map fun r => r.filter fun i => !isTarget i) := by
  have hfinish : ∀ start r, (frames base rs start r).finish = (layout base.toNat rs).2 :=
    fun _ _ => (layout_finish _ _).symm
  have hcount := Routine.remaining_eq .jumps rs
  refine (remove_eq_ok_iff (fun _ _ => rfl) hfinish).2 ⟨hdistinct, hcount.symm, ?_⟩
  refine along_lowered (fun _ => isMarker_of_isTarget) isTarget_iff ?_ ?_
  · intro slot m hm
    exact lowered_of_ne d slot (by rw [Instr.isReference, hm, Bool.not_true, Bool.and_false])
  · intro a ha hm
    by_cases hi : a.instr.isReference = true
    · refine Or.inr ⟨(Instr.isReference_iff.1 hi).1, _, h a ha hi, ?_⟩
      obtain ⟨target, adjust, hpush⟩ := Instr.exists_of_isReference hi
      rw [hpush, lowered]
    · rw [Bool.not_eq_true] at hi
      refine Or.inl ⟨fun hs => ?_, lowered_of_ne d _ hi⟩
      rw [Instr.isReference_iff.2 ⟨hs, hm⟩] at hi
      cases hi

/-- The jump goes to where the marker stood, plus the adjustment, in the layout of the result. -/
theorem lands_of_denotes (hdistinct : (Routine.ids Instr.jumpId? rs).Nodup) {d : Slot → Int32}
    (h : ∀ a ∈ places 0 base.toNat rs, a.instr.isReference = true →
      Denotes (frameAt (frames base rs) base.toNat rs a.slot.routine) a.position a.rest.feedsJump a.instr
        (.pushInt32 (d a.slot))) {push jump marker : Slot} {target adjust : UInt32}
    (hpush : instrAt? rs push = some (.symbolic (.jumpPush target adjust))) (hjump : Feeds rs push jump)
    (hmarker : instrAt? rs marker = some (.symbolic (.jumpTarget target))) :
    jumpEnd base rs jump + (d push).toInt = position base.toNat rs marker + adjust.toNat := by
  obtain ⟨a, ha, rfl, hi⟩ := exists_place base.toNat hpush
  obtain ⟨jump', marker', hjump', hmarker', -, hsum⟩ :=
    (denotes_iff hdistinct ha hi).1 (h a ha (by rw [hi]; rfl))
  obtain rfl := hjump'.unique hjump
  -- there is one marker with this identifier
  obtain rfl : marker = marker' := eq_of_nodup_ids hdistinct hmarker rfl hmarker' rfl
  exact hsum

theorem size_lowered (d : Slot → Int32) (slot : Slot) (i : Instr) :
    (lowered d slot i).size = i.size := by
  unfold lowered
  split <;> rfl

theorem isTarget_lowered (d : Slot → Int32) (slot : Slot) (i : Instr) :
    isTarget (lowered d slot i) = isTarget i := by
  unfold lowered
  split <;> rfl

/-- What a removal does that goes through: it answers the number of references, and the code that
results has the distances `d` in their places and no jump markers; all else is unchanged and in order. -/
structure Removed (base : UInt32) (rs : List Routine) (d : Slot → Int32) (n : Nat) (rs' : List Routine) :
    Prop where
  count : n = rs.flatten.countP Instr.isReference
  result : rs' = (replaceAll (lowered d) 0 rs).map fun r => r.filter fun i => !isTarget i
  /-- In the layout of the result, a jump that was fed by a reference goes to the position at which the
  marker stood, plus the adjustment. -/
  lands : ∀ push target adjust jump marker,
    instrAt? rs push = some (.symbolic (.jumpPush target adjust)) → Feeds rs push jump →
    instrAt? rs marker = some (.symbolic (.jumpTarget target)) →
    instrAt? rs' (jump.without isTarget rs) = some (.op .jumpRelative) ∧
      jumpEnd base rs' (jump.without isTarget rs) + (d push).toInt =
        position base.toNat rs marker + adjust.toNat

/-- **Removing lowers edited code correctly.** Whatever the code is, the markers of jumps can be removed
exactly if it is `Lowerable`, and the result is what `Removed` says. -/
theorem remove_lowers (base : UInt32) (rs : List Routine) :
    ((∃ answer, remove base rs = .ok answer) ↔ Lowerable base rs) ∧
      ∀ n rs', remove base rs = .ok (n, rs') → ∃ d, Removed base rs d n rs' := by
  have hfinish : ∀ start r, (frames base rs start r).finish = (layout base.toNat rs).2 :=
    fun _ _ => (layout_finish _ _).symm
  have hlowerable : (∃ answer, remove base rs = .ok answer) → Lowerable base rs := by
    rintro ⟨⟨n, rs'⟩, h⟩
    obtain ⟨hdistinct, -, halong⟩ := (remove_eq_ok_iff (fun _ _ => rfl) hfinish).1 h
    refine lowerable_iff.2 ⟨hdistinct, fun a ha hi => ?_⟩
    obtain ⟨hs, hm⟩ := Instr.isReference_iff.1 hi
    obtain ⟨o, ho⟩ := exists_denotes_of_along halong ha hm hs
    obtain ⟨-, d, rfl⟩ := ho.pushes_of_jumps hs
    exact ⟨d, ho⟩
  refine ⟨⟨hlowerable, fun h => ?_⟩, ?_⟩
  · obtain ⟨d, hd⟩ := exists_by_slot (lowerable_iff.1 h).2
    exact ⟨_, remove_of_denotes h.distinct hd⟩
  · intro n rs' hrun
    have h := hlowerable ⟨_, hrun⟩
    obtain ⟨d, hd⟩ := exists_by_slot (lowerable_iff.1 h).2
    rw [remove_of_denotes h.distinct hd] at hrun
    cases hrun
    refine ⟨d, rfl, rfl, ?_⟩
    intro push target adjust jump marker hpush hjump hmarker
    rw [← without_replaceAll (isTarget_lowered d)]
    constructor
    · refine instrAt?_without ?_ rfl
      rw [instrAt?_replaceAll, hjump.instr]
      rfl
    · -- neither the replacing nor the dropping changes a position
      rw [jumpEnd, position_without fun _ => isMarker_of_isTarget, position_replaceAll (size_lowered d)]
      exact lands_of_denotes h.distinct hd hpush hjump hmarker

/-- A jump over markers to one in the next routine and a bit further, and one that is fed by a
distance. -/
def editedSample : List Routine :=
  [[.symbolic (.jumpPush 9 2), .symbolic (.jumpTarget 4), .symbolic (.branchTarget 4),
      .op .jumpRelative, .op .endRoutine],
    [.op (.pushInt32 1), .symbolic (.jumpTarget 9), .op .jumpRelative, .op .endRoutine,
      .symbolic (.jumpTarget 5)]]

theorem remove_lowers_edited :
    let rs' : List Routine :=
      [[.op (.pushInt32 8), .symbolic (.branchTarget 4), .op .jumpRelative, .op .endRoutine],
        [.op (.pushInt32 1), .op .jumpRelative, .op .endRoutine]]
    remove 40 editedSample = .ok (1, rs') ∧ Lowerable 40 editedSample ∧
      ∃ d, Removed 40 editedSample d 1 rs' := by
  intro rs'
  have hrun : remove 40 editedSample = .ok (1, rs') := by decide +kernel
  obtain ⟨hlowerable, hremoved⟩ := remove_lowers 40 editedSample
  exact ⟨hrun, hlowerable.1 ⟨_, hrun⟩, hremoved 1 rs' hrun⟩

end ScriptImage.Jumps
