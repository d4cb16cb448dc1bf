import Mathlib.Data.List.Pairwise
import ScriptImage.Proofs.Lowering
import ScriptImage.Proofs.TargetPositions

/-!
# Instructions by place

A place names an instruction of the code as it lies there; its position is the total size of
what stands before.  `places` lists the same places in order, so that what the passes collect
can be said of single places.  A jump is fed from a place if nothing but markers stands
between:

    a.rest.feedsJump = true ↔ ∃ jump, Feeds rs a.slot jump
    Feeds rs slot jump → position p rs jump = position p rs slot + (size of what feeds it)

Dropping markers moves instructions to other places, but to no other positions.
-/

namespace ScriptImage

open Jumps (isMarker)
open Targets (position)

attribute [ext] Slot

/-- The instruction at a place. -/
def instrAt? (rs : List Routine) (slot : Slot) : Option Instr :=
  rs[slot.routine]?.bind fun r => r[slot.index]?

/-- The position after the last of routines that are laid out from a position. -/
def Targets.finish (p : Int) (rs : List Routine) : Int :=
  p + (rs.map Routine.size).sum

/-- The position of a place, counted from the beginning of its routine. -/
def Targets.offset (rs : List Routine) (slot : Slot) : Nat :=
  Routine.size ((rs[slot.routine]?.getD []).take slot.index)

/-- The size of the routine that a place is in. -/
def Targets.extent (rs : List Routine) (slot : Slot) : Nat :=
  Routine.size (rs[slot.routine]?.getD [])

open Targets (offset extent)

variable {rs : List Routine} {slot jump : Slot} {i : Instr} {p : Int}

theorem instrAt?_eq_some_iff :
    instrAt? rs slot = some i ↔ ∃ r, rs[slot.routine]? = some r ∧ r[slot.index]? = some i :=
  Option.bind_eq_some_iff

theorem instrAt?_of_getElem? {j n : Nat} {r : Routine} (hr : rs[j]? = some r) :
    instrAt? rs ⟨j, n⟩ = r[n]? := by
  rw [instrAt?, hr, Option.bind_some]

/-- What is left from an index on begins with the element there. -/
theorem drop_eq_cons_iff {α : Type} {l rest : List α} {n : Nat} {x : α} :
    l.drop n = x :: rest ↔ l[n]? = some x ∧ l.drop (n + 1) = rest := by
  constructor
  · intro h
    exact ⟨by rw [← List.head?_drop, h, List.head?_cons], by rw [← List.tail_drop, h, List.tail_cons]⟩
  · rintro ⟨hx, rfl⟩
    obtain ⟨hlt, rfl⟩ := List.getElem?_eq_some_iff.1 hx
    exact List.drop_eq_getElem_cons hlt

theorem position_of_getElem? {j n : Nat} {r : Routine} (hr : rs[j]? = some r) :
    position p rs ⟨j, n⟩ = p + ((rs.take j).map Routine.size).sum + Routine.size (r.take n) := by
  simp only [position, hr, Option.getD_some]

theorem position_eq_offset (p : Int) (rs : List Routine) (slot : Slot) :
    position p rs slot = position p rs ⟨slot.routine, 0⟩ + offset rs slot := by
  have hfirst : position p rs ⟨slot.routine, 0⟩ = p + ((rs.take slot.routine).map Routine.size).sum := by
    simp [position]
  rw [hfirst]
  rfl

/-! ## Places in order -/

theorem mem_placesFrom_iff {r : Routine} {a : Place} :
    a ∈ placesFrom slot p r ↔ ∃ n, r.drop n = a.instr :: a.rest ∧
      a.slot = ⟨slot.routine, slot.index + n⟩ ∧ a.position = p + Routine.size (r.take n) := by
  constructor
  · exact placesFrom_spec
  · rintro ⟨n, hdrop, hslot, hposition⟩
    induction r generalizing slot p n with
    | nil => simp at hdrop
    | cons i r ih =>
      cases n with
      | zero =>
        obtain ⟨slot', p', i', r'⟩ := a
        obtain rfl : slot' = slot := hslot
        obtain rfl : p' = p := by simpa using hposition
        simp only [List.drop_zero, List.cons.injEq] at hdrop
        obtain ⟨rfl, rfl⟩ := hdrop
        exact List.mem_cons_self
      | succ n =>
        refine List.mem_cons_of_mem _ (ih n hdrop ?_ ?_)
        · rw [hslot]
          show Slot.mk slot.routine (slot.index + (n + 1)) = ⟨slot.routine, slot.index + 1 + n⟩
          congr 1
          omega
        · rw [hposition, List.take_succ_cons, Routine.size_cons]
          omega

/-- The places of routines that are numbered from any `k`. -/
theorem mem_places_numbered_iff {k : Nat} {a : Place} : a ∈ places k p rs ↔ ∃ j r n, rs[j]? = some r ∧
    r.drop n = a.instr :: a.rest ∧ a.slot = ⟨k + j, n⟩ ∧
    a.position = p + ((rs.take j).map Routine.size).sum + Routine.size (r.take n) := by
  refine ⟨places_spec, ?_⟩
  rintro ⟨j, r, n, hr, hdrop, hslot, hposition⟩
  induction rs generalizing k p j with
  | nil => simp at hr
  | cons r' rs ih =>
    rw [places, List.mem_append]
    cases j with
    | zero =>
      cases hr
      refine Or.inl (mem_placesFrom_iff.2 ⟨n, hdrop, ?_, ?_⟩)
      · simpa using hslot
      · simpa using hposition
    | succ j =>
      refine Or.inr (ih j hr ?_ ?_)
      · rw [hslot]
        congr 1
        omega
      · rw [hposition, List.take_succ_cons, List.map_cons, List.sum_cons]
        omega

theorem mem_places_iff {a : Place} :
    a ∈ places 0 p rs ↔ ∃ r, rs[a.slot.routine]? = some r ∧
      r.drop a.slot.index = a.instr :: a.rest ∧ a.position = position p rs a.slot := by
  rw [mem_places_numbered_iff]
  constructor
  · rintro ⟨j, r, n, hr, hdrop, hslot, hposition⟩
    rw [Nat.zero_add] at hslot
    rw [hslot]
    exact ⟨r, hr, hdrop, by rw [hposition, position_of_getElem? hr]⟩
  · rintro ⟨r, hr, hdrop, hposition⟩
    refine ⟨a.slot.routine, r, a.slot.index, hr, hdrop, ?_, ?_⟩
    · rw [Nat.zero_add]
    · rw [hposition, position_of_getElem? hr]

theorem instrAt?_of_mem_places {a : Place} (ha : a ∈ places 0 p rs) :
    instrAt? rs a.slot = some a.instr := by
  obtain ⟨r, hr, hdrop, -⟩ := mem_places_iff.1 ha
  rw [instrAt?_of_getElem? hr, (drop_eq_cons_iff.1 hdrop).1]

theorem position_of_mem_places {a : Place} (ha : a ∈ places 0 p rs) :
    a.position = position p rs a.slot := by
  obtain ⟨-, -, -, hposition⟩ := mem_places_iff.1 ha
  exact hposition

theorem exists_place (p : Int) (h : instrAt? rs slot = some i) :
    ∃ a ∈ places 0 p rs, a.slot = slot ∧ a.instr = i := by
  obtain ⟨r, hr, hi⟩ := instrAt?_eq_some_iff.1 h
  refine ⟨⟨slot, position p rs slot, i, r.drop (slot.index + 1)⟩, ?_, rfl, rfl⟩
  exact mem_places_iff.2 ⟨r, hr, drop_eq_cons_iff.2 ⟨hi, rfl⟩, rfl⟩

/-- No place comes twice. -/
theorem nodup_slots (k : Nat) (p : Int) (rs : List Routine) : ((places k p rs).map Place.slot).Nodup := by
  have hroutine : ∀ (slot : Slot) (p : Int) (r : Routine), ((placesFrom slot p r).map Place.slot).Nodup := by
    intro slot p r
    induction r generalizing slot p with
    | nil => exact List.nodup_nil
    | cons i r ih =>
      refine List.nodup_cons.2 ⟨fun hmem => ?_, ih _ _⟩
      obtain ⟨a, ha, hslot⟩ := List.mem_map.1 hmem
      obtain ⟨n, -, hnext, -⟩ := placesFrom_spec ha
      have hindex := congrArg Slot.index (hnext.symm.trans hslot)
      simp only [Slot.next] at hindex
      omega
  induction rs generalizing k p with
  | nil => exact List.nodup_nil
  | cons r rs ih =>
    rw [places, List.map_append, List.nodup_append]
    refine ⟨hroutine _ _ _, ih _ _, ?_⟩
    rintro slot hslot slot' hslot' rfl
    obtain ⟨a, ha, rfl⟩ := List.mem_map.1 hslot
    obtain ⟨b, hb, heq⟩ := List.mem_map.1 hslot'
    obtain ⟨n, -, hfirst, -⟩ := placesFrom_spec ha
    obtain ⟨j, -, n', -, -, hlater, -⟩ := places_spec hb
    have hroutine := congrArg Slot.routine (hlater.symm.trans (heq.trans hfirst))
    simp only at hroutine
    omega

theorem map_instr_placesFrom (slot : Slot) (p : Int) (r : Routine) :
    (placesFrom slot p r).map Place.instr = r := by
  induction r generalizing slot p with
  | nil => rfl
  | cons i r ih => rw [placesFrom, List.map_cons, ih]

theorem mem_ids_of_instrAt? {pick : Instr → Option UInt32} {id : UInt32} (h : instrAt? rs slot = some i)
    (hi : pick i = some id) : id ∈ Routine.ids pick rs := by
  obtain ⟨r, hr, hn⟩ := instrAt?_eq_some_iff.1 h
  exact List.mem_flatMap.2
    ⟨r, List.mem_of_getElem? hr, List.mem_filterMap.2 ⟨i, List.mem_of_getElem? hn, hi⟩⟩

/-- With distinct identifiers there is one marker for each. -/
theorem eq_of_nodup_ids {pick : Instr → Option UInt32} (h : (Routine.ids pick rs).Nodup) {a b : Slot}
    {i j : Instr} {id : UInt32} (ha : instrAt? rs a = some i) (hi : pick i = some id)
    (hb : instrAt? rs b = some j) (hj : pick j = some id) : a = b := by
  have hids : ∀ k p, Routine.ids pick rs = (places k p rs).filterMap fun a => pick a.instr := by
    clear h ha hb
    induction rs with
    | nil => exact fun _ _ => rfl
    | cons r rs ih =>
      intro k p
      have hfirst : r.filterMap pick = (placesFrom ⟨k, 0⟩ p r).filterMap fun a => pick a.instr := by
        conv => lhs; rw [← map_instr_placesFrom ⟨k, 0⟩ p r, List.filterMap_map]
        rfl
      rw [places, List.filterMap_append, ← ih, ← hfirst]
      rfl
  rw [hids 0 0, List.Nodup, List.pairwise_filterMap] at h
  obtain ⟨x, hx, rfl, rfl⟩ := exists_place 0 ha
  obtain ⟨y, hy, rfl, rfl⟩ := exists_place 0 hb
  refine Decidable.byContradiction fun hne => ?_
  have hxy : x ≠ y := fun heq => hne (congrArg Place.slot heq)
  have hsymm : Std.Symm fun a b : Place =>
      ∀ id, pick a.instr = some id → ∀ id', pick b.instr = some id' → id ≠ id' :=
    ⟨fun _ _ hdiffer id hid id' hid' => (hdiffer id' hid' id hid).symm⟩
  exact h.forall hx hy hxy id hi id hj rfl

/-- What can be found for every place can be given as a function of the place. -/
theorem exists_by_slot {δ : Type} [Inhabited δ] {P : Place → Prop} {Q : Place → δ → Prop}
    (h : ∀ a ∈ places 0 p rs, P a → ∃ d, Q a d) :
    ∃ d : Slot → δ, ∀ a ∈ places 0 p rs, P a → Q a (d a.slot) := by
  have hslot : ∀ slot : Slot, ∃ d, ∀ a ∈ places 0 p rs, a.slot = slot → P a → Q a d := by
    intro slot
    by_cases hplace : ∃ a ∈ places 0 p rs, a.slot = slot ∧ P a
    · obtain ⟨a, ha, rfl, hP⟩ := hplace
      obtain ⟨d, hd⟩ := h a ha hP
      refine ⟨d, fun b hb hslot _ => ?_⟩
      obtain rfl := eq_of_slot_eq hb ha hslot
      exact hd
    · exact ⟨default, fun a ha hslot hP => absurd ⟨a, ha, hslot, hP⟩ hplace⟩
  obtain ⟨d, hd⟩ := Classical.axiomOfChoice hslot
  exact ⟨d, fun a ha => hd a.slot a ha rfl⟩

/-! ## Markers by place -/

theorem Instr.jumpId?_eq_some_iff {id : UInt32} :
    i.jumpId? = some id ↔ i = .symbolic (.jumpTarget id) := by
  constructor
  · intro h
    unfold Instr.jumpId? at h
    split at h
    · cases h
      rfl
    · cases h
  · rintro rfl
    rfl

theorem Instr.branchId?_eq_some_iff {id : UInt32} :
    i.branchId? = some id ↔ i = .symbolic (.branchTarget id) := by
  constructor
  · intro h
    unfold Instr.branchId? at h
    split at h
    · cases h
      rfl
    · cases h
  · rintro rfl
    rfl

theorem Routine.mem_marksFrom_iff {pick : Instr → Option UInt32} {r : Routine} {id : UInt32} {q : Int}
    (slot : Slot) :
    (id, q) ∈ r.marksFrom pick p ↔
      ∃ a ∈ placesFrom slot p r, pick a.instr = some id ∧ a.position = q := by
  induction r generalizing slot p with
  | nil => simp [marksFrom, placesFrom]
  | cons i r ih =>
    rw [marksFrom, placesFrom, List.mem_append, ih slot.next]
    simp only [List.mem_cons, exists_eq_or_imp]
    refine or_congr_left ?_
    cases pick i with
    | none => simp
    | some id' => simp [eq_comm]

theorem Jumps.mem_markers_iff {id : UInt32} {q : Int} :
    (id, q) ∈ Jumps.markers p rs ↔
      ∃ marker, instrAt? rs marker = some (.symbolic (.jumpTarget id)) ∧ position p rs marker = q := by
  have hgeneral : ∀ k, (id, q) ∈ Jumps.markers p rs ↔
      ∃ a ∈ places k p rs, a.instr.jumpId? = some id ∧ a.position = q := by
    induction rs generalizing p with
    | nil => simp [Jumps.markers, places]
    | cons r rs ih =>
      intro k
      rw [Jumps.markers, places, List.mem_append, ih (k + 1), ← Routine.marksFrom_jumpId?,
        Routine.mem_marksFrom_iff ⟨k, 0⟩]
      simp only [List.mem_append, or_and_right, exists_or]
  rw [hgeneral 0]
  constructor
  · rintro ⟨a, ha, hid, rfl⟩
    exact ⟨a.slot, by rw [instrAt?_of_mem_places ha, Instr.jumpId?_eq_some_iff.1 hid],
      (position_of_mem_places ha).symm⟩
  · rintro ⟨marker, hmarker, rfl⟩
    obtain ⟨a, ha, rfl, hi⟩ := exists_place p hmarker
    exact ⟨a, ha, by rw [hi]; rfl, position_of_mem_places ha⟩

/-- The branch markers of a routine, with positions counted from its beginning. -/
theorem Branches.mem_marksFrom_iff (j : Nat) {id : UInt32} {q : Int} :
    (id, q) ∈ Routine.marksFrom Instr.branchId? 0 (rs[j]?.getD []) ↔
      ∃ marker : Slot, marker.routine = j ∧
        instrAt? rs marker = some (.symbolic (.branchTarget id)) ∧ (offset rs marker : Int) = q := by
  rw [Routine.mem_marksFrom_iff ⟨j, 0⟩]
  constructor
  · rintro ⟨a, ha, hid, rfl⟩
    obtain ⟨n, hdrop, -, hposition⟩ := mem_placesFrom_iff.1 ha
    refine ⟨⟨j, n⟩, rfl, ?_, ?_⟩
    · cases hr : rs[j]? with
      | none => simp [hr] at hdrop
      | some r =>
        rw [hr, Option.getD_some] at hdrop
        rw [instrAt?_of_getElem? hr, (drop_eq_cons_iff.1 hdrop).1, Instr.branchId?_eq_some_iff.1 hid]
    · rw [hposition, Int.zero_add]
      rfl
  · rintro ⟨⟨j, n⟩, rfl, hmarker, rfl⟩
    obtain ⟨r, hr, hn⟩ := instrAt?_eq_some_iff.1 hmarker
    simp only at hr hn
    simp only [offset, hr, Option.getD_some]
    refine ⟨⟨⟨j, n⟩, Routine.size (r.take n), .symbolic (.branchTarget id),
      r.drop (n + 1)⟩, ?_, rfl, rfl⟩
    refine mem_placesFrom_iff.2 ⟨n, drop_eq_cons_iff.2 ⟨hn, rfl⟩, ?_, ?_⟩
    · simp only [Nat.zero_add]
    · simp only [Int.zero_add]

/-! ## What feeds a jump -/

/-- The jump is fed from the place before it: both are in one routine, with nothing but markers
between. -/
structure Feeds (rs : List Routine) (slot jump : Slot) : Prop where
  routine : jump.routine = slot.routine
  before : slot.index < jump.index
  instr : instrAt? rs jump = some (.op .jumpRelative)
  between : ∀ n, slot.index < n → n < jump.index →
    ∃ m, instrAt? rs ⟨slot.routine, n⟩ = some m ∧ isMarker m = true

theorem Routine.feedsJump_iff {r : Routine} :
    r.feedsJump = true ↔ ∃ n : Nat, r[n]? = some (Instr.op .jumpRelative) ∧
      ∀ k < n, ∃ m, r[k]? = some m ∧ isMarker m = true := by
  induction r with
  | nil => simp [feedsJump]
  | cons i r ih =>
    by_cases hi : isMarker i = true
    · rw [feedsJump_marker hi, ih]
      constructor
      · rintro ⟨n, hn, hmarkers⟩
        refine ⟨n + 1, hn, fun k hk => ?_⟩
        cases k with
        | zero => exact ⟨i, rfl, hi⟩
        | succ k => exact hmarkers k (by omega)
      · rintro ⟨n, hn, hmarkers⟩
        cases n with
        | zero =>
          cases hn
          cases hi
        | succ n => exact ⟨n, hn, fun k hk => hmarkers (k + 1) (by omega)⟩
    · rw [feedsJump_instr (by simpa using hi), decide_eq_true_eq]
      constructor
      · rintro rfl
        exact ⟨0, rfl, fun k hk => absurd hk k.not_lt_zero⟩
      · rintro ⟨n, hn, hmarkers⟩
        cases n with
        | zero => exact Option.some.inj hn
        | succ n =>
          obtain ⟨m, hm, hmarker⟩ := hmarkers 0 (by omega)
          cases hm
          exact absurd hmarker hi

/-- The rest of a routine begins with a jump, markers apart, exactly if a jump is fed from the place. -/
theorem feedsJump_rest_iff {a : Place} (ha : a ∈ places 0 p rs) :
    a.rest.feedsJump = true ↔ ∃ jump, Feeds rs a.slot jump := by
  obtain ⟨r, hr, hdrop, -⟩ := mem_places_iff.1 ha
  have hget : ∀ n, a.rest[n]? = instrAt? rs ⟨a.slot.routine, a.slot.index + 1 + n⟩ := by
    intro n
    rw [← (drop_eq_cons_iff.1 hdrop).2, List.getElem?_drop, instrAt?_of_getElem? hr]
  rw [Routine.feedsJump_iff]
  constructor
  · rintro ⟨n, hn, hmarkers⟩
    refine ⟨⟨a.slot.routine, a.slot.index + 1 + n⟩, rfl, ?_, ?_, ?_⟩
    · show a.slot.index < a.slot.index + 1 + n
      omega
    · rw [← hget, hn]
    · intro k hlow hhigh
      simp only at hhigh
      obtain ⟨m, hm, hmarker⟩ := hmarkers (k - (a.slot.index + 1)) (by omega)
      rw [hget, show a.slot.index + 1 + (k - (a.slot.index + 1)) = k by omega] at hm
      exact ⟨m, hm, hmarker⟩
  · rintro ⟨⟨j, n⟩, rfl, hbefore, hinstr, hbetween⟩
    simp only at hbefore hbetween
    refine ⟨n - (a.slot.index + 1), ?_, fun k hk => ?_⟩
    · rw [hget, show a.slot.index + 1 + (n - (a.slot.index + 1)) = n by omega]
      exact hinstr
    · rw [hget]
      exact hbetween _ (by omega) (by omega)

namespace Feeds

theorem unique {jump' : Slot} (h : Feeds rs slot jump) (h' : Feeds rs slot jump') : jump = jump' := by
  -- the one further back would be a marker, seen from the other one
  have hle : ∀ {a b : Slot}, Feeds rs slot a → Feeds rs slot b → a.index ≤ b.index := by
    intro a b ha hb
    refine Nat.le_of_not_lt fun hlt => ?_
    obtain ⟨m, hm, hmarker⟩ := ha.between b.index hb.before hlt
    have hinstr := hb.instr
    rw [← hb.routine] at hm
    rw [show (⟨b.routine, b.index⟩ : Slot) = b from rfl, hinstr] at hm
    cases hm
    cases hmarker
  exact Slot.ext (h.routine.trans h'.routine.symm) (Nat.le_antisymm (hle h h') (hle h' h))

/-- The place that feeds a jump holds the nearest instruction before it that is no marker. -/
theorem unique_left {slot' : Slot} {i' : Instr} (h : Feeds rs slot jump) (h' : Feeds rs slot' jump)
    (hi : instrAt? rs slot = some i) (hm : isMarker i = false) (hi' : instrAt? rs slot' = some i')
    (hm' : isMarker i' = false) : slot = slot' := by
  have hle : ∀ {a b : Slot} {x : Instr}, Feeds rs a jump → Feeds rs b jump →
      instrAt? rs b = some x → isMarker x = false → b.index ≤ a.index := by
    intro a b x ha hb hx hmx
    refine Nat.le_of_not_lt fun hlt => ?_
    obtain ⟨m, hm, hmarker⟩ := ha.between b.index hlt hb.before
    rw [← ha.routine, hb.routine, show (⟨b.routine, b.index⟩ : Slot) = b from rfl, hx] at hm
    cases hm
    rw [hmx] at hmarker
    cases hmarker
  have hindex := Nat.le_antisymm (hle h' h hi hm) (hle h h' hi' hm')
  exact Slot.ext (h.routine.symm.trans h'.routine) hindex

/-- Markers take no room between a jump and what feeds it. -/
theorem position_eq (h : Feeds rs slot jump) (hi : instrAt? rs slot = some i) :
    position p rs jump = position p rs slot + i.size := by
  obtain ⟨r, hr, hget⟩ := instrAt?_eq_some_iff.1 hi
  have hr' : rs[jump.routine]? = some r := by rw [h.routine, hr]
  have hsize : ∀ n, slot.index < n → n ≤ jump.index →
      Routine.size (r.take n) = Routine.size (r.take slot.index) + i.size := by
    intro n hlow
    induction n with
    | zero => omega
    | succ n ih =>
      intro hhigh
      have hsucc : ∀ {x : Instr}, r[n]? = some x →
          Routine.size (r.take (n + 1)) = Routine.size (r.take n) + x.size := by
        intro x hx
        rw [List.take_add_one, hx, Option.toList_some]
        unfold Routine.size
        rw [List.map_append, List.sum_append_nat]
        simp
      by_cases hn : slot.index = n
      · rw [← hn] at hsucc ⊢
        exact hsucc hget
      · obtain ⟨m, hm, hmarker⟩ := h.between n (by omega) (by omega)
        rw [instrAt?_of_getElem? hr] at hm
        rw [hsucc hm, size_eq_zero_of_isMarker hmarker, ih (by omega) (by omega)]
        omega
  rw [position_of_getElem? hr, position_of_getElem? hr', h.routine, hsize jump.index h.before (Nat.le_refl _)]
  omega

end Feeds

/-- Going back from a jump over markers leads to the place that feeds it, or to the beginning of the
routine. -/
theorem exists_feeds {r : Routine} (hr : rs[jump.routine]? = some r)
    (h : instrAt? rs jump = some (.op .jumpRelative)) (hfirst : r.feedsJump = false) :
    ∃ slot i, Feeds rs slot jump ∧ instrAt? rs slot = some i ∧ isMarker i = false := by
  obtain ⟨j, n⟩ := jump
  -- the last index before the jump at which no marker stands
  have hback : ∀ k ≤ n, (∀ l, k ≤ l → l < n → ∃ m, r[l]? = some m ∧ isMarker m = true) →
      ∃ slot i, Feeds rs slot ⟨j, n⟩ ∧ instrAt? rs slot = some i ∧ isMarker i = false := by
    intro k
    induction k with
    | zero =>
      intro _ hmarkers
      rw [instrAt?_of_getElem? hr] at h
      rw [Routine.feedsJump_iff.2 ⟨n, h, fun l hl => hmarkers l (Nat.zero_le _) hl⟩] at hfirst
      cases hfirst
    | succ k ih =>
      intro hk hmarkers
      obtain ⟨hn, -⟩ := List.getElem?_eq_some_iff.1 (instrAt?_of_getElem? hr ▸ h)
      have hlt : k < r.length := Nat.lt_of_succ_lt (Nat.lt_of_le_of_lt hk hn)
      have hget : r[k]? = some r[k] := List.getElem?_eq_getElem hlt
      by_cases hm : isMarker r[k] = true
      · refine ih (by omega) fun l hlow hhigh => ?_
        by_cases hl : l = k
        · exact ⟨r[k], by rw [hl, hget], hm⟩
        · exact hmarkers l (by omega) hhigh
      · refine ⟨⟨j, k⟩, r[k], ⟨rfl, hk, h, fun l hlow hhigh => ?_⟩, ?_, by simpa using hm⟩
        · rw [instrAt?_of_getElem? hr]
          exact hmarkers l hlow hhigh
        · rw [instrAt?_of_getElem? hr, hget]
  exact hback n (Nat.le_refl _) fun l hlow hhigh => by omega

/-! ## Replaced instructions by place -/

theorem getElem?_replaceFrom (f : Slot → Instr → Instr) (slot : Slot) (r : Routine) (n : Nat) :
    (replaceFrom f slot r)[n]? = r[n]?.map (f ⟨slot.routine, slot.index + n⟩) := by
  induction r generalizing slot n with
  | nil => rfl
  | cons i r ih =>
    cases n with
    | zero => rfl
    | succ n =>
      rw [replaceFrom, List.getElem?_cons_succ, List.getElem?_cons_succ, ih slot.next n]
      show _ = r[n]?.map (f ⟨slot.routine, slot.index + (n + 1)⟩)
      rw [← Nat.add_assoc, Nat.add_right_comm]
      rfl

theorem getElem?_replaceAll (f : Slot → Instr → Instr) (rs : List Routine) (j : Nat) :
    (replaceAll f 0 rs)[j]? = rs[j]?.map (replaceFrom f ⟨j, 0⟩) := by
  rw [replaceAll_eq_mapIdx, List.getElem?_mapIdx]

theorem instrAt?_replaceAll (f : Slot → Instr → Instr) (rs : List Routine) (slot : Slot) :
    instrAt? (replaceAll f 0 rs) slot = (instrAt? rs slot).map (f slot) := by
  rw [instrAt?, instrAt?, getElem?_replaceAll]
  cases rs[slot.routine]? with
  | none => rfl
  | some r =>
    rw [Option.map_some, Option.bind_some, Option.bind_some, getElem?_replaceFrom, Nat.zero_add]

/-- Replacing depends only on the instructions that are there. -/
theorem replaceAll_congr_of_instrAt? {f g : Slot → Instr → Instr}
    (h : ∀ slot i, instrAt? rs slot = some i → f slot i = g slot i) :
    replaceAll f 0 rs = replaceAll g 0 rs := by
  apply List.ext_getElem?
  intro j
  rw [getElem?_replaceAll, getElem?_replaceAll]
  cases hr : rs[j]? with
  | none => rfl
  | some r =>
    rw [Option.map_some, Option.map_some, Option.some.injEq]
    apply List.ext_getElem?
    intro n
    rw [getElem?_replaceFrom, getElem?_replaceFrom, Nat.zero_add]
    cases hi : r[n]? with
    | none => rfl
    | some i =>
      rw [Option.map_some, Option.map_some, h ⟨j, n⟩ i (by rw [instrAt?_of_getElem? hr, hi])]

theorem replaceAll_replaceAll (f g : Slot → Instr → Instr) (rs : List Routine) :
    replaceAll f 0 (replaceAll g 0 rs) = replaceAll (fun slot i => f slot (g slot i)) 0 rs := by
  apply List.ext_getElem?
  intro j
  rw [getElem?_replaceAll, getElem?_replaceAll, getElem?_replaceAll, Option.map_map]
  congr 1
  funext r
  apply List.ext_getElem?
  intro n
  rw [Function.comp_apply, getElem?_replaceFrom, getElem?_replaceFrom, getElem?_replaceFrom, Option.map_map]
  rfl

/-- What stands in replaced code has taken the place of an instruction. -/
theorem exists_of_mem_replaceAll {f : Slot → Instr → Instr} {r : Routine} (hr : r ∈ replaceAll f 0 rs)
    (hi : i ∈ r) : ∃ slot i', instrAt? rs slot = some i' ∧ i = f slot i' := by
  obtain ⟨j, hj⟩ := List.mem_iff_getElem?.1 hr
  obtain ⟨n, hn⟩ := List.mem_iff_getElem?.1 hi
  have hinstr := instrAt?_of_getElem? hj (n := n)
  rw [hn, instrAt?_replaceAll, Option.map_eq_some_iff] at hinstr
  obtain ⟨i', hi', rfl⟩ := hinstr
  exact ⟨_, i', hi', rfl⟩

/-- What each instruction keeps when it is replaced. -/
theorem map_replaceAll {γ : Type} {f : Slot → Instr → Instr} (g : Instr → γ)
    (hf : ∀ slot i, g (f slot i) = g i) (k : Nat) (rs : List Routine) :
    (replaceAll f k rs).map (List.map g) = rs.map (List.map g) := by
  have hroutine : ∀ slot r, (replaceFrom f slot r).map g = r.map g := by
    intro slot r
    induction r generalizing slot with
    | nil => rfl
    | cons i r ih => rw [replaceFrom, List.map_cons, List.map_cons, ih, hf]
  induction rs generalizing k with
  | nil => rfl
  | cons r rs ih => rw [replaceAll, List.map_cons, List.map_cons, ih, hroutine]

theorem position_replaceAll {f : Slot → Instr → Instr} (hf : ∀ slot i, (f slot i).size = i.size) (p : Int)
    (slot : Slot) : position p (replaceAll f 0 rs) slot = position p rs slot :=
  Targets.position_congr (map_replaceAll Instr.size hf 0 rs) p slot

theorem offset_replaceAll {f : Slot → Instr → Instr} (hf : ∀ slot i, (f slot i).size = i.size)
    (slot : Slot) : offset (replaceAll f 0 rs) slot = offset rs slot := by
  have hslot : position 0 (replaceAll f 0 rs) slot = position 0 rs slot := position_replaceAll hf 0 slot
  have hstart : position 0 (replaceAll f 0 rs) ⟨slot.routine, 0⟩ = position 0 rs ⟨slot.routine, 0⟩ :=
    position_replaceAll hf 0 _
  rw [position_eq_offset, position_eq_offset 0 rs, hstart] at hslot
  omega

/-! ## Dropped markers -/

/-- The place that an instruction has once the instructions in `drops` are gone. -/
def Slot.without (slot : Slot) (drops : Instr → Bool) (rs : List Routine) : Slot :=
  ⟨slot.routine, ((rs[slot.routine]?.getD []).take slot.index).countP fun i => !drops i⟩

section Drops

variable {drops : Instr → Bool}

theorem filter_split (q : Instr → Bool) (r : Routine) (n : Nat) :
    (r.filter q).take ((r.take n).countP q) = (r.take n).filter q ∧
      (r.filter q).drop ((r.take n).countP q) = (r.drop n).filter q := by
  have hsplit : r.filter q = (r.take n).filter q ++ (r.drop n).filter q := by
    rw [← List.filter_append, List.take_append_drop]
  rw [List.countP_eq_length_filter, hsplit]
  exact ⟨List.take_left, List.drop_left⟩

theorem size_filter (hdrops : ∀ i, drops i = true → isMarker i = true) (r : Routine) :
    Routine.size (r.filter fun i => !drops i) = r.size := by
  induction r with
  | nil => rfl
  | cons i r ih =>
    by_cases hi : drops i = true
    · rw [List.filter_cons_of_neg (by simp [hi]), ih, Routine.size_cons,
        size_eq_zero_of_isMarker (hdrops i hi), Nat.zero_add]
    · rw [List.filter_cons_of_pos (by simp [hi]), Routine.size_cons, Routine.size_cons, ih]

theorem instrAt?_without (h : instrAt? rs slot = some i) (hi : drops i = false) :
    instrAt? (rs.map fun r => r.filter fun i => !drops i) (slot.without drops rs) = some i := by
  obtain ⟨r, hr, hget⟩ := instrAt?_eq_some_iff.1 h
  have hr' : (rs.map fun r => r.filter fun i => !drops i)[slot.routine]? =
      some (r.filter fun i => !drops i) := by
    rw [List.getElem?_map, hr, Option.map_some]
  rw [Slot.without, hr, Option.getD_some, instrAt?_of_getElem? hr', ← List.head?_drop,
    (filter_split _ r slot.index).2, drop_eq_cons_iff.2 ⟨hget, rfl⟩,
    List.filter_cons_of_pos (by simp [hi]), List.head?_cons]

theorem offset_without (hdrops : ∀ i, drops i = true → isMarker i = true) (slot : Slot) :
    offset (rs.map fun r => r.filter fun i => !drops i) (slot.without drops rs) = offset rs slot := by
  have hroutine : (slot.without drops rs).routine = slot.routine := rfl
  rw [offset, offset, hroutine, List.getElem?_map]
  cases hr : rs[slot.routine]? with
  | none => simp
  | some r =>
    rw [Slot.without, hr, Option.map_some, Option.getD_some, Option.getD_some, (filter_split _ r _).1,
      size_filter hdrops]

/-- Dropping markers moves nothing to another position. -/
theorem position_without (hdrops : ∀ i, drops i = true → isMarker i = true) (p : Int) (slot : Slot) :
    position p (rs.map fun r => r.filter fun i => !drops i) (slot.without drops rs) =
      position p rs slot := by
  have hstart : position p (rs.map fun r => r.filter fun i => !drops i) ⟨slot.routine, 0⟩ =
      position p rs ⟨slot.routine, 0⟩ := by
    simp only [position, List.take_zero, ← List.map_take, List.map_map]
    congr 4
    apply List.map_congr_left
    intro r _
    exact size_filter hdrops r
  rw [position_eq_offset, position_eq_offset p rs, offset_without hdrops]
  exact congrArg (· + (offset rs slot : Int)) hstart

/-- Where instructions go depends only on which of them are dropped. -/
theorem without_replaceAll {f : Slot → Instr → Instr} (hf : ∀ slot i, drops (f slot i) = drops i)
    (slot : Slot) : slot.without drops (replaceAll f 0 rs) = slot.without drops rs := by
  have hcount : ∀ r : Routine, (r.countP fun i => !drops i) = (r.map drops).countP (!·) := by
    intro r
    rw [List.countP_map]
    rfl
  have hsame := congrArg (·[slot.routine]?) (map_replaceAll drops hf 0 rs)
  simp only [List.getElem?_map] at hsame
  unfold Slot.without
  rw [hcount, hcount, List.map_take, List.map_take]
  congr 3
  cases hr : rs[slot.routine]? with
  | none =>
    rw [hr, Option.map_none, Option.map_eq_none_iff] at hsame
    rw [hsame]
  | some r =>
    rw [hr, Option.map_some, Option.map_eq_some_iff] at hsame
    obtain ⟨r', hr', hmap⟩ := hsame
    rw [hr', Option.getD_some, Option.getD_some, hmap]

end Drops

/-! ## Lowered code by place -/

/-- How many instructions a pass that removes symbolic operands has to change. -/
theorem Routine.remaining_eq (s : Subject) (rs : List Routine) :
    Routine.remaining s rs = rs.flatten.countP fun i => i.subject? = some s && !isMarker i := by
  rw [remaining, about, List.countP_flatMap, List.countP_flatten]
  congr 2
  funext r
  rw [Function.comp_apply, List.countP_filter]
  congr 1
  funext i
  rw [Bool.and_comm]

/-- Routines as an image with nothing else in it. -/
def Image.bare (base : UInt32) (rs : List Routine) : Image where
  header := Header.empty .v41
  code := { Code.empty base with routines := rs }
  order := .little

/-- What instructions of a pass stand for in a routine that can be lowered. -/
theorem Routine.Lowered.exists_denotes {s : Subject} {F : Frame} {r r' : Routine}
    (h : r.Lowered s F p r') {a : Place} (ha : a ∈ placesFrom slot p r)
    (hm : isMarker a.instr = false) (hs : a.instr.subject? = some s) :
    ∃ o, Denotes F a.position a.rest.feedsJump a.instr o := by
  unfold Routine.Lowered at h
  have hmark : ∀ {m : Instr} {p : Int}, isMarker m = true → p + (m.size : Int) = p := by
    intro m p hm
    rw [size_eq_zero_of_isMarker hm]
    omega
  induction h generalizing slot with
  | nil => cases ha
  | keep hm' _ _ ih =>
    rcases List.mem_cons.1 ha with rfl | ha
    · rw [hm'] at hm
      cases hm
    · rw [hmark hm'] at ha
      exact ih ha
  | drop hm' _ _ ih =>
    rcases List.mem_cons.1 ha with rfl | ha
    · rw [hm'] at hm
      cases hm
    · rw [hmark hm'] at ha
      exact ih ha
  | insert _ hf _ _ => exact hf.elim
  | instr _ hstep _ ih =>
    rcases List.mem_cons.1 ha with rfl | ha
    · rcases hstep with ⟨hne, -⟩ | ⟨-, o, ho, -⟩
      · exact absurd hs hne
      · exact ⟨o, ho⟩
    · exact ih ha

section Along

variable {s : Subject} {F : Int → Routine → Frame}

/-- The frame of the routine that a place is in. -/
def frameAt (F : Int → Routine → Frame) (p : Int) (rs : List Routine) (j : Nat) : Frame :=
  F (position p rs ⟨j, 0⟩) (rs[j]?.getD [])

theorem frameAt_zero (r : Routine) (rs : List Routine) : frameAt F p (r :: rs) 0 = F p r := by
  simp [frameAt, position]

theorem frameAt_succ (r : Routine) (j : Nat) :
    frameAt F p (r :: rs) (j + 1) = frameAt F (p + r.size) rs j := by
  simp only [frameAt, position, List.take_succ_cons, List.map_cons, List.sum_cons,
    List.getElem?_cons_succ, List.take_zero, Routine.size_nil]
  congr 1
  omega

/-- In code that can be lowered every instruction of the pass stands for something. -/
theorem exists_denotes_of_along {rs' : List Routine}
    (h : Along (fun start r r' => r.Lowered s (F start r) start r') p rs rs') {a : Place}
    (ha : a ∈ places 0 p rs) (hm : isMarker a.instr = false) (hs : a.instr.subject? = some s) :
    ∃ o, Denotes (frameAt F p rs a.slot.routine) a.position a.rest.feedsJump a.instr o := by
  have hgeneral : ∀ k, a ∈ places k p rs → ∃ j, a.slot.routine = k + j ∧
      ∃ o, Denotes (frameAt F p rs j) a.position a.rest.feedsJump a.instr o := by
    clear ha
    induction h with
    | nil => exact fun _ ha => nomatch ha
    | @cons p r r' rs rs' hP _ ih =>
      intro k ha
      rcases List.mem_append.1 ha with ha | ha
      · refine ⟨0, ?_, ?_⟩
        · obtain ⟨n, -, hslot, -⟩ := placesFrom_spec ha
          rw [hslot]
          rfl
        · rw [frameAt_zero]
          exact hP.exists_denotes ha hm hs
      · obtain ⟨j, hj, ho⟩ := ih (k + 1) ha
        refine ⟨j + 1, by omega, ?_⟩
        rw [frameAt_succ]
        exact ho
  obtain ⟨j, hj, ho⟩ := hgeneral 0 ha
  rw [hj, Nat.zero_add]
  exact ho

/-- If every instruction of a pass is replaced by what it stands for, and the markers of the pass are
dropped, the code is lowered. -/
theorem along_lowered {drops : Instr → Bool} {f : Slot → Instr → Instr}
    (hdrops : ∀ i, drops i = true → isMarker i = true)
    (hsubject : ∀ {m}, isMarker m = true → (drops m = true ↔ m.subject? = some s))
    (hmarker : ∀ slot m, isMarker m = true → f slot m = m)
    (hinstr : ∀ a ∈ places 0 p rs, isMarker a.instr = false →
      lowering s (frameAt F p rs a.slot.routine) a.position a.rest.feedsJump a.instr (f a.slot a.instr)) :
    Along (fun start r r' => r.Lowered s (F start r) start r') p rs
      ((replaceAll f 0 rs).map fun r => r.filter fun i => !drops i) := by
  have hgeneral : ∀ k, (∀ a ∈ places k p rs, isMarker a.instr = false →
      ∀ j, a.slot.routine = k + j →
        lowering s (frameAt F p rs j) a.position a.rest.feedsJump a.instr (f a.slot a.instr)) →
      Along (fun start r r' => r.Lowered s (F start r) start r') p rs
        ((replaceAll f k rs).map fun r => r.filter fun i => !drops i) := by
    clear hinstr
    induction rs generalizing p with
    | nil => exact fun _ _ => Along.nil
    | cons r rs ih =>
      intro k hinstr
      refine Along.cons ?_ (ih (k + 1) ?_)
      · refine (Respelled.filter_iff (lowering_faithful _ _) hdrops hsubject).2 ⟨_, ?_, rfl⟩
        refine respelled_replaceFrom (fun a _ hm => hmarker _ _ hm) fun a ha hm => ?_
        rw [← frameAt_zero (F := F) (p := p) r rs]
        refine hinstr a (List.mem_append_left _ ha) hm 0 ?_
        obtain ⟨n, -, hslot, -⟩ := placesFrom_spec ha
        rw [hslot]
        rfl
      · intro a ha hm j hj
        rw [← frameAt_succ (F := F)]
        exact hinstr a (List.mem_append_right _ ha) hm (j + 1) (by omega)
  refine hgeneral 0 fun a ha hm j hj => ?_
  rw [Nat.zero_add] at hj
  rw [← hj]
  exact hinstr a ha hm

end Along

end ScriptImage
