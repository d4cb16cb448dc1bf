import ScriptImage.Proofs.Editing

/-!
# Target positions and identifiers

A target position is moved back to a boundary, and the distance is kept:

    snap bs finish target = some (b, a) → b + a = target

Identifiers that are handed out are above all that occur, so a new marker is never confused
with an old one.
-/

namespace ScriptImage.Targets

open Jumps (isMarker)

/-! ## Boundaries -/

theorem mem_routineBoundaries {slot : Slot} {p : Int} {r : Routine} {x : Int × Slot} :
    x ∈ routineBoundaries slot p r ↔
      ∃ a ∈ placesFrom slot p r, 0 < a.instr.size ∧ x = (a.position, a.slot) := by
  induction r generalizing slot p with
  | nil => simp [routineBoundaries, placesFrom]
  | cons i r ih =>
    have hrest : x ∈ routineBoundaries { slot with index := slot.index + 1 } (p + i.size) r ↔
        ∃ a ∈ placesFrom slot.next (p + i.size) r, 0 < a.instr.size ∧ x = (a.position, a.slot) := ih
    rw [routineBoundaries, placesFrom]
    constructor
    · intro hx
      by_cases hi : 0 < i.size
      · rw [if_pos hi] at hx
        rcases List.mem_cons.1 hx with rfl | hx
        · exact ⟨_, List.mem_cons_self, hi, rfl⟩
        · obtain ⟨a, ha, h⟩ := hrest.1 hx
          exact ⟨a, List.mem_cons_of_mem _ ha, h⟩
      · rw [if_neg hi] at hx
        obtain ⟨a, ha, h⟩ := hrest.1 hx
        exact ⟨a, List.mem_cons_of_mem _ ha, h⟩
    · rintro ⟨a, ha, hsize, rfl⟩
      rcases List.mem_cons.1 ha with rfl | ha
      · rw [if_pos hsize]
        exact List.mem_cons_self
      · have hx := hrest.2 ⟨a, ha, hsize, rfl⟩
        by_cases hi : 0 < i.size
        · rw [if_pos hi]
          exact List.mem_cons_of_mem _ hx
        · rw [if_neg hi]
          exact hx

/-- The boundaries are the positions of the sized instructions. -/
theorem mem_boundaries {k : Nat} {p : Int} {rs : List Routine} {x : Int × Slot} :
    x ∈ boundaries k p rs ↔ ∃ a ∈ places k p rs, 0 < a.instr.size ∧ x = (a.position, a.slot) := by
  induction rs generalizing k p with
  | nil => simp [boundaries, places]
  | cons r rs ih =>
    rw [boundaries, List.mem_append, mem_routineBoundaries, ih, places]
    constructor
    · rintro (⟨a, ha, h⟩ | ⟨a, ha, h⟩)
      · exact ⟨a, List.mem_append_left _ ha, h⟩
      · exact ⟨a, List.mem_append_right _ ha, h⟩
    · rintro ⟨a, ha, h⟩
      rcases List.mem_append.1 ha with ha | ha
      · exact Or.inl ⟨a, ha, h⟩
      · exact Or.inr ⟨a, ha, h⟩

/-- Whether a place is before an instruction or at the end of a routine. -/
def Within (rs : List Routine) (slot : Slot) : Prop :=
  ∃ r, rs[slot.routine]? = some r ∧ slot.index ≤ r.length

/-- The position of a place in routines laid out from `p`. -/
def position (p : Int) (rs : List Routine) (slot : Slot) : Int :=
  p + ((rs.take slot.routine).map Routine.size).sum +
    Routine.size ((rs[slot.routine]?.getD []).take slot.index)

theorem within_of_mem_boundaries {p q : Int} {rs : List Routine} {slot : Slot}
    (h : (q, slot) ∈ boundaries 0 p rs) : Within rs slot ∧ position p rs slot = q := by
  obtain ⟨a, ha, -, heq⟩ := mem_boundaries.1 h
  cases heq
  obtain ⟨j, r, n, hr, hdrop, hslot, hposition⟩ := places_spec ha
  rw [Nat.zero_add] at hslot
  rw [hslot, hposition]
  refine ⟨⟨r, hr, ?_⟩, ?_⟩
  · refine Nat.le_of_not_lt fun hn => ?_
    rw [List.drop_eq_nil_of_le (Nat.le_of_lt hn)] at hdrop
    cases hdrop
  · simp only [position, hr, Option.getD_some]

/-- Positions depend only on the sizes of the instructions. -/
theorem position_congr {rs rs' : List Routine}
    (h : rs'.map (List.map Instr.size) = rs.map (List.map Instr.size)) (p : Int) (slot : Slot) :
    position p rs' slot = position p rs slot := by
  have hsizes : ∀ l : List Routine, position p l slot =
      p + (((l.map (List.map Instr.size)).take slot.routine).map List.sum).sum +
        (((l.map (List.map Instr.size))[slot.routine]?.getD []).take slot.index).sum := by
    intro l
    unfold position Routine.size
    rw [← List.map_take, List.map_map, List.getElem?_map]
    cases l[slot.routine]? with
    | none =>
      rw [Option.map_none, Option.getD_none, Option.getD_none, List.take_nil, List.take_nil]
      rfl
    | some r =>
      rw [Option.map_some, Option.getD_some, Option.getD_some, ← List.map_take]
      rfl
  rw [hsizes, hsizes, h]

theorem within_congr {rs rs' : List Routine}
    (h : rs'.map (List.map Instr.size) = rs.map (List.map Instr.size)) {slot : Slot}
    (hslot : Within rs slot) : Within rs' slot := by
  obtain ⟨r, hr, hn⟩ := hslot
  have hboth := congrArg (fun l => (l[slot.routine]?).map List.length) h
  simp only [List.getElem?_map, hr] at hboth
  cases hr' : rs'[slot.routine]? with
  | none =>
    rw [hr'] at hboth
    cases hboth
  | some r' =>
    rw [hr'] at hboth
    simp only [Option.map_some, List.length_map, Option.some.injEq] at hboth
    exact ⟨r', hr', by omega⟩

theorem layout_finish (p : Int) (rs : List Routine) :
    (layout p rs).2 = p + (rs.map Routine.size).sum := by
  induction rs generalizing p with
  | nil =>
    show p = p + ((0 : Nat) : Int)
    omega
  | cons r rs ih =>
    show (layout (p + r.size) rs).2 = _
    rw [ih, List.map_cons, List.sum_cons]
    omega

/-- The end of a routine, with positions counted from its beginning. -/
theorem layout_single (r : Routine) : (layout 0 [r]).2 = (r.size : Int) := by
  rw [layout_finish]
  show (0 : Int) + ((Routine.size r + 0 : Nat) : Int) = _
  omega

/-- A target lies at the given distance from a boundary. -/
theorem snap_spec {bs : List (Int × Slot)} {finish target b : Int} {a : UInt32}
    (h : snap bs finish target = some (b, a)) : b + a.toNat = target := by
  have hdistance : ∀ b', (if 0 ≤ target - b' ∧ target - b' ≤ maxOffset then
      some (b', UInt32.ofNat (target - b').toNat) else none) = some (b, a) → b + a.toNat = target := by
    intro b' h
    by_cases hd : 0 ≤ target - b' ∧ target - b' ≤ maxOffset
    · rw [if_pos hd, Option.some.injEq, Prod.mk.injEq] at h
      obtain ⟨rfl, rfl⟩ := h
      rw [Code.toNat_ofNat_of_le (by omega)]
      omega
    · rw [if_neg hd] at h
      cases h
  unfold snap at h
  by_cases ht : target = finish
  · simp only [if_pos ht] at h
    exact hdistance finish h
  · simp only [if_neg ht] at h
    obtain ⟨b', -, h⟩ := Option.bind_eq_some_iff.1 h
    exact hdistance b' h

/-! ## Identifiers -/

theorem successor_eq_ok_iff {id id' : UInt32} :
    successor id = .ok id' ↔ id.toNat + 1 ≤ maxOffset ∧ id'.toNat = id.toNat + 1 := by
  have hlt := id.toNat_lt
  unfold successor maxOffset
  by_cases h : id.toNat = 4294967295
  · rw [if_pos h]
    exact iff_of_false nofun fun h' => by omega
  · have hnat : (id + 1).toNat = id.toNat + 1 := by
      rw [UInt32.toNat_add, show (1 : UInt32).toNat = 1 from rfl, Nat.mod_eq_of_lt (by omega)]
    rw [if_neg h, Except.ok.injEq, ← UInt32.toNat_inj, hnat]
    exact ⟨fun h' => ⟨by omega, h'.symm⟩, fun h' => h'.2.symm⟩

theorem le_foldl_max (l : List UInt32) (a : UInt32) :
    a.toNat ≤ (l.foldl max a).toNat ∧ ∀ x ∈ l, x.toNat ≤ (l.foldl max a).toNat := by
  induction l generalizing a with
  | nil => exact ⟨Nat.le_refl _, nofun⟩
  | cons b l ih =>
    have hmax : a.toNat ≤ (max a b).toNat ∧ b.toNat ≤ (max a b).toNat := by
      by_cases hab : a ≤ b
      · rw [show max a b = b from if_pos hab]
        exact ⟨UInt32.le_iff_toNat_le.1 hab, Nat.le_refl _⟩
      · rw [show max a b = a from if_neg hab]
        rw [UInt32.le_iff_toNat_le] at hab
        exact ⟨Nat.le_refl _, by omega⟩
    obtain ⟨hfirst, hrest⟩ := ih (max a b)
    refine ⟨Nat.le_trans hmax.1 hfirst, fun x hx => ?_⟩
    rcases List.mem_cons.1 hx with rfl | hx
    · exact Nat.le_trans hmax.2 hfirst
    · exact hrest x hx

theorem le_of_max? {l : List UInt32} {highest : UInt32} (h : l.max? = some highest) {x : UInt32}
    (hx : x ∈ l) : x.toNat ≤ highest.toNat := by
  cases l with
  | nil => cases hx
  | cons a l =>
    obtain rfl : l.foldl max a = highest := Option.some.inj h
    obtain ⟨hfirst, hrest⟩ := le_foldl_max l a
    rcases List.mem_cons.1 hx with rfl | hx
    · exact hfirst
    · exact hrest x hx

/-- The next identifier is above all identifiers of markers. -/
theorem lt_of_nextId {rs : List Routine} {next : UInt32} (h : nextId rs = .ok next)
    {pick : Instr → Option UInt32} (hpick : ∀ i id, pick i = some id → i.targetId? = some id)
    {id : UInt32} (hid : id ∈ Routine.ids pick rs) : id.toNat < next.toNat := by
  have hmem : id ∈ rs.flatMap fun r => r.filterMap Instr.targetId? := by
    obtain ⟨r, hr, hid⟩ := List.mem_flatMap.1 hid
    obtain ⟨i, hi, hid⟩ := List.mem_filterMap.1 hid
    exact List.mem_flatMap.2 ⟨r, hr, List.mem_filterMap.2 ⟨i, hi, hpick i id hid⟩⟩
  unfold nextId at h
  generalize (rs.flatMap fun r => r.filterMap Instr.targetId?) = all at h hmem
  cases hmax : all.max? with
  | none =>
    rw [List.max?_eq_none_iff.1 hmax] at hmem
    cases hmem
  | some highest =>
    rw [hmax] at h
    have hle := le_of_max? hmax hmem
    have hnext := (successor_eq_ok_iff.1 h).2
    omega

theorem targetId?_of_jumpId? (i : Instr) (id : UInt32) (h : i.jumpId? = some id) :
    i.targetId? = some id := by
  unfold Instr.jumpId? at h
  split at h
  · cases h
    rfl
  · cases h

theorem targetId?_of_branchId? (i : Instr) (id : UInt32) (h : i.branchId? = some id) :
    i.targetId? = some id := by
  unfold Instr.branchId? at h
  split at h
  · cases h
    rfl
  · cases h

/-- Identifiers handed out from `low` on, one for each of some target positions; `next` is the first
free one. -/
structure Assigned (low next : UInt32) (ids : List (Int × UInt32)) : Prop where
  low_le : low.toNat ≤ next.toNat
  range : ∀ x ∈ ids, low.toNat ≤ x.2.toNat ∧ x.2.toNat < next.toNat
  targets : (ids.map Prod.fst).Nodup
  distinct : (ids.map Prod.snd).Nodup

theorem Assigned.nil (low : UInt32) : Assigned low low [] :=
  ⟨Nat.le_refl _, nofun, List.nodup_nil, List.nodup_nil⟩

theorem Assigned.push {low next next' : UInt32} {ids : List (Int × UInt32)} {target : Int}
    (h : Assigned low next ids) (hfree : ids.lookup target = none)
    (hnext : successor next = .ok next') : Assigned low next' (ids ++ [(target, next)]) := by
  have hsucc := (successor_eq_ok_iff.1 hnext).2
  have hlow := h.low_le
  refine ⟨by omega, ?_, ?_, ?_⟩
  · intro x hx
    rcases List.mem_append.1 hx with hx | hx
    · have := h.range x hx
      omega
    · obtain rfl := List.mem_singleton.1 hx
      exact ⟨hlow, Nat.lt_of_succ_le (Nat.le_of_eq hsucc.symm)⟩
  · rw [List.map_append, List.nodup_append]
    refine ⟨h.targets, List.nodup_cons.2 ⟨List.not_mem_nil, List.nodup_nil⟩, ?_⟩
    intro t ht t' ht'
    obtain rfl := List.mem_singleton.1 ht'
    obtain ⟨x, hx, rfl⟩ := List.mem_map.1 ht
    exact fun heq => bne_iff_ne.1 (List.lookup_eq_none_iff.1 hfree x hx) heq.symm
  · rw [List.map_append, List.nodup_append]
    refine ⟨h.distinct, List.nodup_cons.2 ⟨List.not_mem_nil, List.nodup_nil⟩, ?_⟩
    intro id hid id' hid'
    obtain rfl := List.mem_singleton.1 hid'
    obtain ⟨x, hx, rfl⟩ := List.mem_map.1 hid
    rintro rfl
    exact Nat.lt_irrefl _ (h.range x hx).2

/-- Finding a place for the marker of each target position. Different positions have different
places. -/
theorem places_of_mapM {find : Int → Except Error Slot} (mark : UInt32 → Instr) {locate : Slot → Int}
    {ids : List (Int × UInt32)} {inserts : List (Slot × Instr)}
    (hfind : ∀ x ∈ ids, ∀ slot, find x.1 = .ok slot → locate slot = x.1)
    (htargets : (ids.map Prod.fst).Nodup)
    (h : ids.mapM (fun x => do
      let slot ← find x.1
      return (slot, mark x.2)) = .ok inserts) :
    (inserts.map Prod.fst).Nodup ∧ inserts.map Prod.snd = ids.map (fun x => mark x.2) ∧
      (∀ x ∈ ids, ∃ slot, find x.1 = .ok slot ∧ (slot, mark x.2) ∈ inserts) ∧
      ∀ y ∈ inserts, ∃ x ∈ ids, find x.1 = .ok y.1 := by
  induction ids generalizing inserts with
  | nil =>
    cases h
    exact ⟨List.nodup_nil, rfl, nofun, nofun⟩
  | cons x ids ih =>
    rw [List.mapM_cons] at h
    obtain ⟨y, hy, h⟩ := Run.except_bind_eq_ok_iff.1 h
    obtain ⟨rest, hrest, h⟩ := Run.except_bind_eq_ok_iff.1 h
    obtain ⟨slot, hslot, hlast⟩ := Run.except_bind_eq_ok_iff.1 hy
    cases h
    cases hlast
    obtain ⟨hx, htargets⟩ := List.nodup_cons.1 htargets
    obtain ⟨hslots, hmarks, hplaced, horigin⟩ :=
      ih (fun x' hx' => hfind x' (List.mem_cons_of_mem _ hx')) htargets hrest
    refine ⟨List.nodup_cons.2 ⟨?_, hslots⟩, ?_, ?_, ?_⟩
    · intro hmem
      obtain ⟨y', hy', heq⟩ := List.mem_map.1 hmem
      obtain ⟨x', hx', hslot'⟩ := horigin y' hy'
      simp only at heq
      rw [heq] at hslot'
      have hfirst := hfind x List.mem_cons_self slot hslot
      have hsecond := hfind x' (List.mem_cons_of_mem _ hx') slot hslot'
      exact hx (List.mem_map.2 ⟨x', hx', hsecond.symm.trans hfirst⟩)
    · rw [List.map_cons, List.map_cons, hmarks]
    · intro x' hx'
      rcases List.mem_cons.1 hx' with rfl | hx'
      · exact ⟨slot, hslot, List.mem_cons_self⟩
      · obtain ⟨slot', hslot', hin⟩ := hplaced x' hx'
        exact ⟨slot', hslot', List.mem_cons_of_mem _ hin⟩
    · intro y hy
      rcases List.mem_cons.1 hy with rfl | hy
      · exact ⟨x, List.mem_cons_self, hslot⟩
      · obtain ⟨x', hx', hslot'⟩ := horigin y hy
        exact ⟨x', List.mem_cons_of_mem _ hx', hslot'⟩

theorem filterMap_marks {pick : Instr → Option UInt32} (mark : UInt32 → Instr)
    (hpick : ∀ id, pick (mark id) = some id) {ids : List (Int × UInt32)} {inserts : List (Slot × Instr)}
    (h : inserts.map Prod.snd = ids.map fun x => mark x.2) :
    (inserts.filterMap fun a => pick a.2) = ids.map Prod.snd := by
  have hsnd : (inserts.filterMap fun a => pick a.2) = (inserts.map Prod.snd).filterMap pick := by
    rw [List.filterMap_map]
    rfl
  have hsome : (pick ∘ fun x : Int × UInt32 => mark x.2) = some ∘ Prod.snd := by
    funext x
    exact hpick x.2
  rw [hsnd, h, List.filterMap_map, hsome, List.filterMap_eq_map]

/-- New identifiers on markers do not meet the old ones. -/
theorem nodup_ids_insertAll {pick : Instr → Option UInt32} {rs : List Routine}
    {inserts : List (Slot × Instr)} (hold : (Routine.ids pick rs).Nodup)
    (hnew : (inserts.filterMap fun a => pick a.2).Nodup)
    (hfresh : ∀ id ∈ Routine.ids pick rs, id ∉ inserts.filterMap fun a => pick a.2) :
    (Routine.ids pick (insertAll rs inserts)).Nodup := by
  rw [List.nodup_iff_count] at hold hnew ⊢
  intro id
  have hcount := count_ids_insertAll pick id rs inserts
  have hold' := hold id
  have hnew' := hnew id
  by_cases hid : id ∈ Routine.ids pick rs
  · rw [List.count_eq_zero_of_not_mem (hfresh id hid)] at hcount
    omega
  · rw [List.count_eq_zero_of_not_mem hid] at hcount
    omega

/-! ## Words -/

theorem int32?_eq_some_iff {v : Int} {d : Int32} : int32? v = some d ↔ d.toInt = v := by
  unfold int32?
  by_cases h : -2147483648 ≤ v ∧ v ≤ 2147483647
  · have hv : (Int32.ofInt v).toInt = v := Int32.toInt_ofInt_of_le (by omega) (by omega)
    rw [if_pos h, Option.some.injEq, ← Int32.toInt_inj, hv]
    exact eq_comm
  · rw [if_neg h]
    refine iff_of_false nofun fun heq => h ?_
    have hlow := d.le_toInt
    have hhigh := d.toInt_lt
    omega

theorem int16?_eq_some_iff {v : Int} {d : Int16} : int16? v = some d ↔ d.toInt = v := by
  unfold int16?
  by_cases h : -32768 ≤ v ∧ v ≤ 32767
  · have hv : (Int16.ofInt v).toInt = v := Int16.toInt_ofInt_of_le (by omega) (by omega)
    rw [if_pos h, Option.some.injEq, ← Int16.toInt_inj, hv]
    exact eq_comm
  · rw [if_neg h]
    refine iff_of_false nofun fun heq => h ?_
    have hlow := d.le_toInt
    have hhigh := d.toInt_lt
    omega

end ScriptImage.Targets
