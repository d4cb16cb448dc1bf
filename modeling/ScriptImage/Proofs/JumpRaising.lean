import ScriptImage.Proofs.FreshIds
import ScriptImage.Proofs.JumpLowering
import ScriptImage.Proofs.Landing

/-!
# Distances become references to jump markers

When markers of jumps are added, each pushed distance that a jump takes gives way to a reference.
Its marker goes before the sized instruction that covers the destination, and the reference keeps the
rest of the way.  `Raisable` says, place by place, when this goes through, however the code has come
about:

    (∃ answer, add base rs = .ok answer) ↔ Raisable base rs

Destinations that are covered by one instruction share its marker.  All else stays in order, and
dropping the new markers and pushing the distances again gives the code back.
-/

namespace ScriptImage.Jumps

open Targets

/-- A jump takes the distance that is pushed before it. -/
structure Takes (rs : List Routine) (push jump : Slot) (d : Int32) : Prop where
  feeds : Feeds rs push jump
  distance : instrAt? rs push = some (.op (.pushInt32 d))

/-- The positions of the markers that are needed: where the destinations of jumps land. -/
def targets (base : UInt32) (rs : List Routine) : Set Int :=
  {q | ∃ push jump d marker adjust, Takes rs push jump d ∧ Lands rs (codeEnd rs) marker adjust ∧
    position base.toNat rs marker + adjust.toNat = jumpEnd base rs jump + d.toInt ∧
    position base.toNat rs marker = q}

/-- What it takes to replace distances by references. -/
structure Raisable (base : UInt32) (rs : List Routine) : Prop where
  /-- Every jump is fed by a pushed distance or by a reference. -/
  fed : ∀ jump, instrAt? rs jump = some (.op .jumpRelative) → ∃ push i, Feeds rs push jump ∧
    instrAt? rs push = some i ∧
      ((∃ d, i = .op (.pushInt32 d)) ∨ ∃ target adjust, i = .symbolic (.jumpPush target adjust))
  /-- A jump that takes a distance stays within the code, or goes to its end. -/
  inside : ∀ push jump d, Takes rs push jump d → base.toNat ≤ jumpEnd base rs jump + d.toInt ∧
    jumpEnd base rs jump + d.toInt ≤ finish base.toNat rs
  /-- There are identifiers for all markers. -/
  ids : firstFree rs + (targets base rs).ncard ≤ maxOffset

/-- A reference, with the distance in whose place it stands. -/
@[ext]
structure Reference where
  distance : Int32
  target : UInt32
  adjust : UInt32

/-- References in their places. -/
def raised (refs : Slot → Option Reference) (slot : Slot) (i : Instr) : Instr :=
  match refs slot with
  | some ref => .symbolic (.jumpPush ref.target ref.adjust)
  | none => i

/-- The distances in the places of references. -/
def restored (refs : Slot → Option Reference) (slot : Slot) (i : Instr) : Instr :=
  match refs slot with
  | some ref => .op (.pushInt32 ref.distance)
  | none => i

/-- A reference leads to where the jump would go by the distance. -/
structure Refers (base : UInt32) (rs : List Routine) (marks : List (Slot × UInt32)) (ref : Reference)
    (jump marker : Slot) : Prop where
  mark : (marker, ref.target) ∈ marks
  lands : Lands rs (codeEnd rs) marker ref.adjust
  sum : position base.toNat rs marker + ref.adjust.toNat = jumpEnd base rs jump + ref.distance.toInt

/-- Whether an instruction is one of some jump markers. -/
def isAmong (marks : List (Slot × UInt32)) : Instr → Bool
  | .symbolic (.jumpTarget id) => id ∈ marks.map Prod.snd
  | _ => false

variable {base : UInt32} {rs : List Routine} {p : Int} {slot push jump : Slot} {adjust : UInt32} {d : Int32}

/-! ## Destinations -/

theorem Takes.unique {jump' : Slot} {d' : Int32} (h : Takes rs push jump d) (h' : Takes rs push jump' d') :
    jump = jump' ∧ d = d' := by
  have hinstr := h.distance.symm.trans h'.distance
  cases hinstr
  exact ⟨h.feeds.unique h'.feeds, rfl⟩

/-- A jump takes the distance from one place. -/
theorem Takes.unique_left {push' : Slot} {d' : Int32} (h : Takes rs push jump d)
    (h' : Takes rs push' jump d') : push = push' :=
  h.feeds.unique_left h'.feeds h.distance rfl h'.distance rfl

/-- There are as many distances that jumps take as there are jumps that take one. -/
theorem ncard_pushes : {push | ∃ jump d, Takes rs push jump d}.ncard =
    {jump | ∃ push d, Takes rs push jump d}.ncard := by
  refine Set.ncard_congr (fun push hpush => Exists.choose hpush) ?_ ?_ ?_
  · intro push hpush
    exact ⟨push, hpush.choose_spec⟩
  · intro push push' hpush hpush' heq
    obtain ⟨d, htakes⟩ := hpush.choose_spec
    obtain ⟨d', htakes'⟩ := hpush'.choose_spec
    rw [← heq] at htakes'
    exact htakes.unique_left htakes'
  · rintro jump ⟨push, d, htakes⟩
    have hpush : ∃ jump d, Takes rs push jump d := ⟨jump, d, htakes⟩
    obtain ⟨d', htakes'⟩ := hpush.choose_spec
    exact ⟨push, hpush, (htakes'.unique htakes).1⟩

/-- The marker for the position where a destination lands is put there. -/
theorem markerSlot_of_lands (h : Lands rs (codeEnd rs) slot adjust) :
    markerSlot rs (boundaries 0 p rs) (finish p rs) (position p rs slot) = .ok slot := by
  rcases h with ⟨i, hi, hlt⟩ | ⟨rfl, rfl⟩
  · obtain ⟨a, ha, rfl, rfl⟩ := exists_place p hi
    have hbounds := (places_bounds ha).2
    rw [← position_of_mem_places ha, markerSlot, if_neg (by omega),
      lookup_boundaries ha (Nat.zero_lt_of_lt hlt)]
  · rw [position_codeEnd, markerSlot, if_pos rfl]
    rfl

/-- A destination lands at one place. -/
theorem lands_unique {slot' : Slot} {adjust' : UInt32} (h : Lands rs (codeEnd rs) slot adjust)
    (h' : Lands rs (codeEnd rs) slot' adjust')
    (heq : position p rs slot + adjust.toNat = position p rs slot' + adjust'.toNat) :
    slot = slot' ∧ adjust = adjust' := by
  have hsnap := h.snap_eq p
  rw [heq, h'.snap_eq p, Option.some.injEq, Prod.mk.injEq] at hsnap
  obtain ⟨hposition, hadjust⟩ := hsnap
  have hmarker := markerSlot_of_lands (p := p) h
  rw [← hposition, markerSlot_of_lands h', Except.ok.injEq] at hmarker
  exact ⟨hmarker.symm, hadjust.symm⟩

/-! ## Jumps that nothing feeds -/

theorem feedsJump_of_unfed {k : Nat} {s : Site} (hs : s ∈ sites k p rs) (hnone : s.feeder = none) :
    ∃ r ∈ rs, r.feedsJump = true := by
  induction rs generalizing k p with
  | nil => cases hs
  | cons r rs ih =>
    rcases List.mem_append.1 hs with hs | hs
    · refine ⟨r, List.mem_cons_self, ?_⟩
      rw [sitesFrom_eq] at hs
      rcases List.mem_append.1 hs with hs | hs
      · by_cases hfirst : r.feedsJump = true
        · exact hfirst
        · rw [if_neg hfirst] at hs
          cases hs
      · obtain ⟨a, -, rfl⟩ := List.mem_map.1 hs
        cases hnone
    · obtain ⟨r', hr', hfirst⟩ := ih hs
      exact ⟨r', List.mem_cons_of_mem _ hr', hfirst⟩

/-- With every jump fed, no routine begins with one. -/
theorem Raisable.feedsJump_eq_false (h : Raisable base rs) {r : Routine} (hr : r ∈ rs) :
    r.feedsJump = false := by
  rw [← Bool.not_eq_true]
  intro hfirst
  obtain ⟨n, hn, hmarkers⟩ := Routine.feedsJump_iff.1 hfirst
  obtain ⟨j, hj⟩ := List.mem_iff_getElem?.1 hr
  obtain ⟨⟨j', k⟩, i, hfeeds, hpush, hi⟩ := h.fed ⟨j, n⟩ (by rw [instrAt?_of_getElem? hj, hn])
  obtain rfl : j = j' := hfeeds.routine
  obtain ⟨m, hm, hmarker⟩ := hmarkers k hfeeds.before
  -- what feeds the jump would be a marker
  rw [instrAt?_of_getElem? hj, hm] at hpush
  cases hpush
  rcases hi with ⟨d, rfl⟩ | ⟨target, adjust, rfl⟩ <;> cases hmarker

/-! ## Resolving -/

/-- What becomes of what feeds a jump: a distance within the code is resolved to where it lands, and a
reference is left alone. -/
theorem resolve_site_iff {a : Place} (ha : a ∈ places 0 base.toNat rs) (hjump : Feeds rs a.slot jump)
    {x : Option Resolved} :
    resolve (boundaries 0 base.toNat rs) base.toNat (finish base.toNat rs) a.site = .ok x ↔
      (∃ d marker adjust, a.instr = .op (.pushInt32 d) ∧ Lands rs (codeEnd rs) marker adjust ∧
        position base.toNat rs marker + adjust.toNat = jumpEnd base rs jump + d.toInt ∧
        base.toNat ≤ jumpEnd base rs jump + d.toInt ∧
        jumpEnd base rs jump + d.toInt ≤ finish base.toNat rs ∧
        x = some ⟨a.slot, position base.toNat rs marker, adjust⟩) ∨
      ((∃ target adjust, a.instr = .symbolic (.jumpPush target adjust)) ∧ x = none) := by
  have hend := jumpEnd_eq ha hjump
  obtain ⟨slot, q, i, r⟩ := a
  simp only at hend ⊢
  unfold resolve Place.site
  simp only [← hend]
  constructor
  · intro h
    split at h
    · next slot' d heq =>
      cases heq
      split at h
      · cases h
      · next hinside =>
        have hlow : (base.toNat : Int) ≤ jumpEnd base rs jump + d.toInt := by omega
        have hhigh : jumpEnd base rs jump + d.toInt ≤ finish base.toNat rs := by omega
        obtain ⟨marker, adjust, hlands, hsum⟩ := exists_lands hlow hhigh
        rw [← hsum, hlands.snap_eq] at h
        cases h
        exact Or.inl ⟨d, marker, adjust, rfl, hlands, hsum, hlow, hhigh, rfl⟩
    · next heq =>
      cases heq
      cases h
      exact Or.inr ⟨⟨_, _, rfl⟩, rfl⟩
    · cases h
  · rintro (⟨d, marker, adjust, rfl, hlands, hsum, hlow, hhigh, rfl⟩ |
      ⟨⟨target, adjust, rfl⟩, rfl⟩)
    · simp only
      rw [if_neg (by omega), ← hsum, hlands.snap_eq]
    · rfl

section Found

variable {found : List (Option Resolved)}

/-- What is resolved are the distances that jumps take. -/
theorem mem_pushes_iff (hfound : (sites 0 base.toNat rs).mapM
    (resolve (boundaries 0 base.toNat rs) base.toNat (finish base.toNat rs)) = .ok found) {x : Resolved} :
    x ∈ found.filterMap id ↔ ∃ jump d marker, Takes rs x.slot jump d ∧
      Lands rs (codeEnd rs) marker x.adjust ∧ position base.toNat rs marker = x.target ∧
      x.target + x.adjust.toNat = jumpEnd base rs jump + d.toInt := by
  constructor
  · intro hx
    obtain ⟨a, ha, hm, hfeeds, hresolve⟩ := place_of_push hfound hx
    obtain ⟨jump, hjump⟩ := (feedsJump_rest_iff ha).1 hfeeds
    rcases (resolve_site_iff ha hjump).1 hresolve with
      ⟨d, marker, adjust, hi, hlands, hsum, -, -, heq⟩ | ⟨-, heq⟩
    · cases heq
      exact ⟨jump, d, marker, ⟨hjump, by rw [instrAt?_of_mem_places ha, hi]⟩, hlands, rfl, hsum⟩
    · cases heq
  · rintro ⟨jump, d, marker, htakes, hlands, htarget, hsum⟩
    obtain ⟨a, ha, hslot, hi⟩ := exists_place base.toNat htakes.distance
    have hjump : Feeds rs a.slot jump := hslot ▸ htakes.feeds
    obtain ⟨y, hy, hresolve⟩ :=
      Run.mem_of_mapM hfound (site_mem ha (by rw [hi]; rfl) ((feedsJump_rest_iff ha).2 ⟨jump, hjump⟩))
    rcases (resolve_site_iff ha hjump).1 hresolve with
      ⟨d', marker', adjust', hi', hlands', hsum', -, -, rfl⟩ | ⟨⟨target, adjust, hi'⟩, -⟩
    · rw [hi] at hi'
      cases hi'
      rw [← htarget] at hsum
      obtain ⟨rfl, hadjust⟩ := lands_unique hlands' hlands (hsum'.trans hsum.symm)
      refine List.mem_filterMap.2 ⟨_, hy, ?_⟩
      rw [hslot, htarget, hadjust]
      rfl
    · rw [hi] at hi'
      cases hi'

/-- The positions of what is resolved are the targets. -/
theorem mem_map_target_iff (hfound : (sites 0 base.toNat rs).mapM
    (resolve (boundaries 0 base.toNat rs) base.toNat (finish base.toNat rs)) = .ok found) (q : Int) :
    q ∈ (found.filterMap id).map Resolved.target ↔ q ∈ targets base rs := by
  rw [List.mem_map]
  constructor
  · rintro ⟨x, hx, rfl⟩
    obtain ⟨jump, d, marker, htakes, hlands, htarget, hsum⟩ := (mem_pushes_iff hfound).1 hx
    exact ⟨x.slot, jump, d, marker, x.adjust, htakes, hlands, by rw [htarget, hsum], htarget⟩
  · rintro ⟨push, jump, d, marker, adjust, htakes, hlands, hsum, rfl⟩
    exact ⟨⟨push, position base.toNat rs marker, adjust⟩,
      (mem_pushes_iff hfound).2 ⟨jump, d, marker, htakes, hlands, rfl, hsum⟩, rfl⟩

end Found

/-- Whether an instruction pushes a distance. -/
def isPush : Instr → Bool
  | .op (.pushInt32 _) => true
  | _ => false

theorem isPush_of_isMarker (m : Instr) (hm : isMarker m = true) : isPush m = false := by
  obtain ⟨id, rfl | rfl⟩ := isMarker_iff.1 hm <;> rfl

/-- Only pushed distances are resolved. -/
theorem slot_of_resolve {bs : List (Int × Slot)} {q finish : Int} (s : Site) (y : Option Resolved)
    (h : resolve bs q finish s = .ok y) : y.map Resolved.slot = s.slotIf isPush := by
  obtain ⟨e, feeder⟩ := s
  unfold resolve at h
  simp only at h
  split at h
  · split at h
    · cases h
    · split at h
      · cases h
        rfl
      · cases h
  · cases h
    rfl
  · cases h

/-! ## What it takes to add markers -/

theorem Decided.raisable {found : List (Option Resolved)} {next : UInt32} {ids : List (Int × UInt32)}
    {inserts : List (Slot × Instr)} (h : Decided base rs found next ids inserts) : Raisable base rs := by
  have hfound := h.resolved
  rw [layout_finish] at hfound
  have hsite : ∀ {push jump i}, Feeds rs push jump → instrAt? rs push = some i → isMarker i = false →
      ∃ a ∈ places 0 base.toNat rs, a.slot = push ∧ a.instr = i ∧ ∃ y,
        resolve (boundaries 0 base.toNat rs) base.toNat (finish base.toNat rs) a.site = .ok y := by
    intro push jump i hjump hpush hm
    obtain ⟨a, ha, rfl, rfl⟩ := exists_place base.toNat hpush
    have hfeeds := (feedsJump_rest_iff ha).2 ⟨jump, hjump⟩
    obtain ⟨y, -, hy⟩ := Run.mem_of_mapM hfound (site_mem ha hm hfeeds)
    exact ⟨a, ha, rfl, rfl, y, hy⟩
  refine ⟨fun jump hjump => ?_, fun push jump d htakes => ?_, ?_⟩
  · obtain ⟨r, hr, -⟩ := instrAt?_eq_some_iff.1 hjump
    have hfirst : r.feedsJump = false := by
      rw [← Bool.not_eq_true]
      intro hfirst
      obtain ⟨s, hs, hnone⟩ := exists_unfed (k := 0) (p := base.toNat) (List.mem_of_getElem? hr) hfirst
      obtain ⟨y, -, hy⟩ := Run.mem_of_mapM hfound hs
      exact resolve_unfed hnone _ hy
    obtain ⟨push, i, hfeeds, hpush, hm⟩ := exists_feeds hr hjump hfirst
    obtain ⟨a, ha, rfl, rfl, y, hy⟩ := hsite hfeeds hpush hm
    refine ⟨a.slot, a.instr, hfeeds, hpush, ?_⟩
    rcases (resolve_site_iff ha hfeeds).1 hy with ⟨d, -, -, hi, -⟩ | ⟨hi, -⟩
    · exact Or.inl ⟨d, hi⟩
    · exact Or.inr hi
  · obtain ⟨a, ha, rfl, hi, y, hy⟩ := hsite htakes.feeds htakes.distance rfl
    rcases (resolve_site_iff ha htakes.feeds).1 hy with
      ⟨d', -, -, hi', -, -, hlow, hhigh, -⟩ | ⟨⟨target, adjust, hi'⟩, -⟩
    · rw [hi] at hi'
      cases hi'
      exact ⟨hlow, hhigh⟩
    · rw [hi] at hi'
      cases hi'
  · -- each target took one identifier, and the one after the last is still a word
    obtain ⟨next', htake⟩ := assignIds_eq_ok_iff.1 h.assigned
    obtain ⟨-, -, hcount⟩ := Branches.Ids.takeAll_spec htake
    obtain ⟨-, hnext⟩ := nextId_eq_ok_iff.1 h.free
    have hlt := next'.toNat_lt
    rw [← hnext, Branches.Ids.ncard_eq next (mem_map_target_iff hfound)]
    simp only at hcount
    rw [maxOffset]
    omega

theorem Raisable.exists_decided (h : Raisable base rs) :
    ∃ found next ids inserts, Decided base rs found next ids inserts := by
  have hsite : ∀ s ∈ sites 0 base.toNat rs, ∃ x,
      resolve (boundaries 0 base.toNat rs) base.toNat (finish base.toNat rs) s = .ok x := by
    intro s hs
    rcases site_cases hs with hnone | ⟨a, ha, hm, hfeeds, rfl⟩
    · obtain ⟨r, hr, hfirst⟩ := feedsJump_of_unfed hs hnone
      rw [h.feedsJump_eq_false hr] at hfirst
      cases hfirst
    · obtain ⟨jump, hjump⟩ := (feedsJump_rest_iff ha).1 hfeeds
      obtain ⟨push, i, hfeeds', hpush, hi⟩ := h.fed jump hjump.instr
      have hmi : isMarker i = false := by rcases hi with ⟨d, rfl⟩ | ⟨target, adjust, rfl⟩ <;> rfl
      -- the jump is fed from one place only
      obtain rfl : a.slot = push := hjump.unique_left hfeeds' (instrAt?_of_mem_places ha) hm hpush hmi
      obtain rfl : a.instr = i := Option.some.inj ((instrAt?_of_mem_places ha).symm.trans hpush)
      rcases hi with ⟨d, hi⟩ | hi
      · obtain ⟨hlow, hhigh⟩ := h.inside a.slot jump d ⟨hjump, by rw [hpush, hi]⟩
        obtain ⟨marker, adjust, hlands, hsum⟩ := exists_lands hlow hhigh
        exact ⟨_, (resolve_site_iff ha hjump).2
          (Or.inl ⟨d, marker, adjust, hi, hlands, hsum, hlow, hhigh, rfl⟩)⟩
      · exact ⟨none, (resolve_site_iff ha hjump).2 (Or.inr ⟨hi, rfl⟩)⟩
  obtain ⟨found, hfound⟩ := Run.exists_mapM hsite
  have hids := h.ids
  obtain ⟨next, hnext⟩ := exists_nextId_of_le (by omega : firstFree rs ≤ maxOffset)
  rw [Branches.Ids.ncard_eq next (mem_map_target_iff hfound), ← (nextId_eq_ok_iff.1 hnext).2] at hids
  obtain ⟨⟨next', ids⟩, htake⟩ := Branches.Ids.exists_takeAll ⟨next, []⟩ hids
  have hassign := assignIds_eq_ok_iff.2 ⟨next', htake⟩
  have hmark : ∀ x ∈ ids, ∃ y, (do
      let slot ← markerSlot rs (boundaries 0 base.toNat rs) (finish base.toNat rs) x.1
      return (slot, Instr.symbolic (.jumpTarget x.2))) = Except.ok y := by
    intro x hx
    rcases (assignIds_spec (Assigned.nil next) hassign).2.1 x hx with hnil | htarget
    · cases hnil
    · obtain ⟨-, -, -, marker, adjust, -, hlands, -, hposition⟩ := (mem_map_target_iff hfound _).1 htarget
      rw [← hposition, markerSlot_of_lands hlands]
      exact ⟨_, rfl⟩
  obtain ⟨inserts, hinserts⟩ := Run.exists_mapM hmark
  refine ⟨found, next, ids, inserts, ?_, hnext, hassign, ?_⟩
  · rw [layout_finish]
    exact hfound
  · rw [layout_finish]
    exact hinserts

/-! ## What an addition does -/

/-- What an addition does that goes through: it answers the number of jumps that take a distance, puts
references in the places of the distances, and inserts markers. -/
structure Raised (base : UInt32) (rs : List Routine) (refs : Slot → Option Reference)
    (marks : List (Slot × UInt32)) (n : Nat) (rs' : List Routine) : Prop where
  count : n = {jump | ∃ push d, Takes rs push jump d}.ncard
  result : rs' = insertEach (newMarkers (fun id => .symbolic (.jumpTarget id)) marks) 0
    (replaceAll (raised refs) 0 rs)
  /-- There is one marker for each target position. -/
  total : marks.length = (targets base rs).ncard
  /-- The identifiers are distinct, and above all that occur in the code. -/
  fresh : Fresh rs marks
  /-- A marker is put right before the sized instruction at a target position, or at the end. -/
  placed : ∀ m ∈ marks, Lands rs (codeEnd rs) m.1 0 ∧ position base.toNat rs m.1 ∈ targets base rs
  /-- In the result it has the position of its place. -/
  stands : ∀ m ∈ marks, (m.2, position base.toNat rs m.1) ∈ markers base.toNat rs'
  /-- Only distances that jumps take are replaced. -/
  only : ∀ push ref, refs push = some ref → ∃ jump, Takes rs push jump ref.distance
  /-- All of them are, by references to where the jumps go. -/
  refers : ∀ push jump d, Takes rs push jump d → ∃ ref marker,
    refs push = some ref ∧ ref.distance = d ∧ Refers base rs marks ref jump marker
  /-- Without the new markers, and with the distances in their places, the code is as it was. -/
  restores : replaceAll (restored refs) 0 (rs'.map fun r => r.filter fun i => !isAmong marks i) = rs

namespace Decided

variable {found : List (Option Resolved)} {next : UInt32} {ids : List (Int × UInt32)}
  {inserts : List (Slot × Instr)} {marks : List (Slot × UInt32)}

theorem mem_found_iff (h : Decided base rs found next ids inserts) {x : Resolved} :
    x ∈ found.filterMap id ↔ ∃ jump d marker, Takes rs x.slot jump d ∧
      Lands rs (codeEnd rs) marker x.adjust ∧ position base.toNat rs marker = x.target ∧
      x.target + x.adjust.toNat = jumpEnd base rs jump + d.toInt := by
  have hfound := h.resolved
  rw [layout_finish] at hfound
  exact mem_pushes_iff hfound

theorem mem_targets_iff (h : Decided base rs found next ids inserts) {q : Int} :
    q ∈ targets base rs ↔ ∃ id, (q, id) ∈ ids := by
  have hfound := h.resolved
  rw [layout_finish] at hfound
  obtain ⟨-, horigin, -, htargets⟩ := assignIds_spec (Assigned.nil next) h.assigned
  rw [← mem_map_target_iff hfound]
  constructor
  · exact htargets q
  · rintro ⟨id, hid⟩
    exact (horigin _ hid).resolve_left List.not_mem_nil

theorem exists_marks (h : Decided base rs found next ids inserts) : ∃ marks, Fresh rs marks ∧
    marks.length = (targets base rs).ncard ∧
    inserts = (marks.map fun m => (m.1, Instr.symbolic (.jumpTarget m.2))) ∧
    ∀ marker id, (marker, id) ∈ marks ↔
      Lands rs (codeEnd rs) marker 0 ∧ (position base.toNat rs marker, id) ∈ ids := by
  obtain ⟨⟨next', hassigned⟩, -⟩ := assignIds_spec (Assigned.nil next) h.assigned
  have hplaced := h.placed
  rw [layout_finish] at hplaced
  have hfits : ∀ x ∈ ids, ∃ marker, Lands rs (codeEnd rs) marker 0 ∧
      position base.toNat rs marker = x.1 := by
    intro x hx
    obtain ⟨-, -, -, marker, adjust, -, hlands, -, hposition⟩ := h.mem_targets_iff.2 ⟨x.2, hx⟩
    exact ⟨marker, hlands.start, hposition⟩
  obtain ⟨marks, hinserts, hlength, hslots, hids, hrange, hmem⟩ :=
    exists_marks_of_mapM (fun id => .symbolic (.jumpTarget id)) (fun _ hlands => markerSlot_of_lands hlands)
      hassigned hfits hplaced
  refine ⟨marks, ⟨hslots, hids, fun m hm => ?_⟩, ?_, hinserts, hmem⟩
  · rw [← (nextId_eq_ok_iff.1 h.free).2]
    exact (hrange m hm).1
  · rw [hlength, ← List.length_map (f := Prod.fst), ncard_eq_length hassigned.targets]
    intro q
    rw [h.mem_targets_iff, List.mem_map]
    exact ⟨fun ⟨x, hx, hq⟩ => ⟨x.2, hq ▸ hx⟩, fun ⟨id, hid⟩ => ⟨(q, id), hid, rfl⟩⟩

/-- Every distance that a jump takes has a reference to where the jump goes, and only one. -/
theorem exists_refs (h : Decided base rs found next ids inserts) (hfresh : Fresh rs marks)
    (hmarks : ∀ marker id, (marker, id) ∈ marks ↔
      Lands rs (codeEnd rs) marker 0 ∧ (position base.toNat rs marker, id) ∈ ids) :
    ∃ refs : Slot → Option Reference,
      (∀ push ref, refs push = some ref → ∃ jump, Takes rs push jump ref.distance) ∧
      ∀ push jump d, Takes rs push jump d → ∃ ref marker, refs push = some ref ∧ ref.distance = d ∧
        Refers base rs marks ref jump marker := by
  -- a distance lands at one place, and there is one marker there
  have hunique : ∀ push ref ref', (∃ jump marker, Takes rs push jump ref.distance ∧
      Refers base rs marks ref jump marker) → (∃ jump marker, Takes rs push jump ref'.distance ∧
        Refers base rs marks ref' jump marker) → ref = ref' := by
    rintro push ref ref' ⟨jump, marker, htakes, hrefers⟩ ⟨jump', marker', htakes', hrefers'⟩
    obtain ⟨rfl, hdistance⟩ := htakes.unique htakes'
    have hsum := hrefers'.sum
    rw [← hdistance] at hsum
    obtain ⟨rfl, hadjust⟩ := lands_unique hrefers.lands hrefers'.lands (hrefers.sum.trans hsum.symm)
    have htarget := (lookup_eq_some_iff_mem hfresh.slots).2 hrefers.mark
    rw [(lookup_eq_some_iff_mem hfresh.slots).2 hrefers'.mark] at htarget
    exact Reference.ext hdistance (Option.some.inj htarget).symm hadjust
  obtain ⟨refs, hrefs⟩ := exists_partial hunique
  refine ⟨refs, fun push ref href => ?_, fun push jump d htakes => ?_⟩
  · obtain ⟨jump, -, htakes, -⟩ := (hrefs push ref).1 href
    exact ⟨jump, htakes⟩
  · obtain ⟨hlow, hhigh⟩ := h.raisable.inside push jump d htakes
    obtain ⟨marker, adjust, hlands, hsum⟩ := exists_lands hlow hhigh
    obtain ⟨id, hid⟩ := h.mem_targets_iff.1 ⟨push, jump, d, marker, adjust, htakes, hlands, hsum, rfl⟩
    have hrefers : Refers base rs marks ⟨d, id, adjust⟩ jump marker :=
      ⟨(hmarks marker id).2 ⟨hlands.start, hid⟩, hlands, hsum⟩
    exact ⟨⟨d, id, adjust⟩, marker, (hrefs _ _).2 ⟨jump, marker, htakes, hrefers⟩, rfl, hrefers⟩

/-- What is set is the references. -/
theorem setAll_pushesAs (h : Decided base rs found next ids inserts)
    (hmarks : ∀ marker id, (marker, id) ∈ marks ↔
      Lands rs (codeEnd rs) marker 0 ∧ (position base.toNat rs marker, id) ∈ ids)
    {refs : Slot → Option Reference}
    (honly : ∀ push ref, refs push = some ref → ∃ jump, Takes rs push jump ref.distance)
    (hrefers : ∀ push jump d, Takes rs push jump d → ∃ ref marker, refs push = some ref ∧
      ref.distance = d ∧ Refers base rs marks ref jump marker) :
    setAll rs (pushesAs ids (found.filterMap id)) = replaceAll (raised refs) 0 rs := by
  obtain ⟨⟨next', hassigned⟩, -⟩ := assignIds_spec (Assigned.nil next) h.assigned
  rw [setAll_eq]
  refine replaceAll_congr_of_instrAt? fun slot i hi => ?_
  rcases edited_cases (pushesAs ids (found.filterMap id)) slot i with hin | ⟨hnone, hsame⟩
  · obtain ⟨x, hx, heq⟩ := List.mem_map.1 hin
    rw [Prod.mk.injEq] at heq
    obtain ⟨rfl, hedited⟩ := heq
    obtain ⟨jump, d, marker, htakes, hlands, htarget, hsum⟩ := h.mem_found_iff.1 hx
    obtain ⟨ref, marker', href, rfl, hrefer⟩ := hrefers _ _ _ htakes
    rw [← htarget] at hsum
    obtain ⟨rfl, hadjust⟩ := lands_unique hlands hrefer.lands (hsum.trans hrefer.sum.symm)
    have hid := ((hmarks _ _).1 hrefer.mark).2
    rw [htarget] at hid
    rw [← hedited, raised, href, (lookup_eq_some_iff_mem hassigned.targets).2 hid, Option.getD_some, hadjust]
  · rw [hsame, raised]
    cases href : refs slot with
    | none => rfl
    | some ref =>
      obtain ⟨jump, htakes⟩ := honly slot ref href
      obtain ⟨ref', marker, -, hdistance, hrefer⟩ := hrefers _ _ _ htakes
      have hsum := hrefer.sum
      rw [hdistance] at hsum
      have hx : (⟨slot, position base.toNat rs marker, ref'.adjust⟩ : Resolved) ∈ found.filterMap id :=
        h.mem_found_iff.2 ⟨jump, ref.distance, marker, htakes, hrefer.lands, rfl, hsum⟩
      exact absurd (List.mem_map.2 ⟨_, hx, rfl⟩) (hnone _)

/-- Distances are resolved for exactly the jumps that take them, each from its own place. -/
theorem nodup_pushes (h : Decided base rs found next ids inserts) :
    ((found.filterMap id).map Resolved.slot).Nodup := by
  have hslots : (found.filterMap id).map Resolved.slot =
      ((places 0 base.toNat rs).filter fun a => a.rest.feedsJump).filterMap (Place.slotIf isPush) := by
    have hmap := Run.map_eq_of_mapM (k := Option.map Resolved.slot) slot_of_resolve h.resolved
    have hcollect := congrArg (List.filterMap id) hmap
    rw [List.filterMap_map, List.filterMap_map] at hcollect
    rw [← filterMap_sites_slotIf isPush_of_isMarker, List.map_filterMap]
    exact hcollect
  rw [hslots, filterMap_slotIf]
  exact (nodup_slots 0 base.toNat rs).sublist ((List.filter_sublist.trans List.filter_sublist).map _)

theorem length_pushes (h : Decided base rs found next ids inserts) :
    (found.filterMap id).length = {jump | ∃ push d, Takes rs push jump d}.ncard := by
  rw [← ncard_pushes, ← List.length_map (f := Resolved.slot)]
  refine (ncard_eq_length h.nodup_pushes fun push => ?_).symm
  rw [List.mem_map]
  constructor
  · rintro ⟨x, hx, rfl⟩
    obtain ⟨jump, d, -, htakes, -⟩ := h.mem_found_iff.1 hx
    exact ⟨jump, d, htakes⟩
  · rintro ⟨jump, d, htakes⟩
    obtain ⟨hlow, hhigh⟩ := h.raisable.inside push jump d htakes
    obtain ⟨marker, adjust, hlands, hsum⟩ := exists_lands hlow hhigh
    exact ⟨⟨push, position base.toNat rs marker, adjust⟩,
      h.mem_found_iff.2 ⟨jump, d, marker, htakes, hlands, rfl, hsum⟩, rfl⟩

end Decided

theorem isAmong_jumpTarget_iff {marks : List (Slot × UInt32)} {i : Instr} :
    isAmong marks i = true ↔ ∃ m ∈ marks, i = .symbolic (.jumpTarget m.2) := by
  unfold isAmong
  split
  · next id =>
    rw [decide_eq_true_eq, List.mem_map]
    refine exists_congr fun m => and_congr_right fun _ => ?_
    constructor
    · rintro rfl
      rfl
    · intro heq
      cases heq
      rfl
  · next hne =>
    refine iff_of_false nofun ?_
    rintro ⟨m, -, rfl⟩
    exact hne m.2 rfl

/-- Dropping the new markers and pushing the distances again undoes an addition. -/
theorem restores_of_fresh {refs : Slot → Option Reference} {marks : List (Slot × UInt32)}
    (hfresh : Fresh rs marks)
    (honly : ∀ push ref, refs push = some ref → ∃ jump, Takes rs push jump ref.distance) :
    replaceAll (restored refs) 0 ((insertEach (newMarkers (fun id => .symbolic (.jumpTarget id)) marks) 0
      (replaceAll (raised refs) 0 rs)).map fun r => r.filter fun i => !isAmong marks i) = rs := by
  rw [filter_insertEach (fun slot m hm => ?_) (fun r hr i hi => ?_)]
  · rw [replaceAll_replaceAll, replaceAll_congr_of_instrAt? fun slot i hi => ?_, replaceAll_id]
    rw [restored, raised]
    cases href : refs slot with
    | none => rfl
    | some ref =>
      obtain ⟨jump, htakes⟩ := honly slot ref href
      exact Option.some.inj (htakes.distance.symm.trans hi)
  · obtain ⟨id, hid, rfl⟩ := (mem_newMarkers_iff hfresh.slots).1 hm
    rw [isAmong_jumpTarget_iff.2 ⟨(slot, id), hid, rfl⟩]
    rfl
  · -- what was there before is no marker with a new identifier
    rw [Bool.not_eq_true', ← Bool.not_eq_true, isAmong_jumpTarget_iff]
    rintro ⟨m, hm, rfl⟩
    obtain ⟨slot, i', hslot, heq⟩ := exists_of_mem_replaceAll hr hi
    rw [raised] at heq
    split at heq
    · cases heq
    · subst heq
      have hid : Instr.jumpId? (.symbolic (.jumpTarget m.2)) = some m.2 := rfl
      have hlt := lt_firstFree targetId?_of_jumpId? (mem_ids_of_instrAt? hslot hid)
      have hle := hfresh.free m hm
      omega

theorem Decided.exists_raised {found : List (Option Resolved)} {next : UInt32} {ids : List (Int × UInt32)}
    {inserts : List (Slot × Instr)} (h : Decided base rs found next ids inserts) :
    ∃ refs marks, Raised base rs refs marks (found.filterMap id).length
      (insertAll (setAll rs (pushesAs ids (found.filterMap id))) inserts) := by
  obtain ⟨marks, hfresh, htotal, rfl, hmarks⟩ := h.exists_marks
  obtain ⟨refs, honly, hrefers⟩ := h.exists_refs hfresh hmarks
  have hresult := insertAll_eq_newMarkers (fun id => .symbolic (.jumpTarget id)) hfresh.slots
    (setAll rs (pushesAs ids (found.filterMap id)))
  refine ⟨refs, marks, h.length_pushes, ?_, htotal, hfresh, ?_, ?_, honly, hrefers, ?_⟩
  · rw [← h.setAll_pushesAs hmarks honly hrefers, ← hresult]
  · rintro ⟨marker, id⟩ hm
    obtain ⟨hlands, hid⟩ := (hmarks marker id).1 hm
    exact ⟨hlands, h.mem_targets_iff.2 ⟨id, hid⟩⟩
  · rintro ⟨marker, id⟩ hm
    exact h.addition.mem_markers_of_new ((hmarks marker id).1 hm).2
  · rw [hresult, h.setAll_pushesAs hmarks honly hrefers]
    exact restores_of_fresh hfresh honly

/-- **Adding resolves every jump.** Whatever the code is, markers of jumps can be added exactly if it is
`Raisable`, and the result is what `Raised` says. -/
theorem add_raises_jumps (base : UInt32) (rs : List Routine) :
    ((∃ answer, add base rs = .ok answer) ↔ Raisable base rs) ∧
      ∀ n rs', add base rs = .ok (n, rs') → ∃ refs marks, Raised base rs refs marks n rs' := by
  refine ⟨⟨?_, fun h => ?_⟩, fun n rs' hrun => ?_⟩
  · rintro ⟨⟨n, rs'⟩, hrun⟩
    obtain ⟨found, next, ids, inserts, h, -⟩ := add_eq_ok_iff.1 hrun
    exact h.raisable
  · obtain ⟨found, next, ids, inserts, h⟩ := h.exists_decided
    exact ⟨_, add_eq_ok_iff.2 ⟨found, next, ids, inserts, h, rfl, rfl⟩⟩
  · obtain ⟨found, next, ids, inserts, h, rfl, rfl⟩ := add_eq_ok_iff.1 hrun
    exact h.exists_raised

/-- A jump into the middle of an instruction of the next routine, one back to the very beginning, one
from that instruction to itself, one to the end of the code, and one that has a reference already. -/
def misalignedSample : List Routine :=
  [[.op (.pushInt32 9), .symbolic (.branchTarget 2), .op .jumpRelative, .op .endRoutine,
      .op (.pushInt32 (-13)), .op .jumpRelative],
    [.symbolic (.jumpTarget 6), .op (.pushInt32 (-6)), .op .jumpRelative, .op (.pushInt32 6),
      .op .jumpRelative, .symbolic (.jumpPush 6 0), .op .jumpRelative]]

theorem add_raises_jumps_misaligned :
    let rs' : List Routine :=
      [[.symbolic (.jumpTarget 8), .symbolic (.jumpPush 7 2), .symbolic (.branchTarget 2),
          .op .jumpRelative, .op .endRoutine, .symbolic (.jumpPush 8 0), .op .jumpRelative],
        [.symbolic (.jumpTarget 6), .symbolic (.jumpTarget 7), .symbolic (.jumpPush 7 0),
          .op .jumpRelative, .symbolic (.jumpPush 9 0), .op .jumpRelative, .symbolic (.jumpPush 6 0),
          .op .jumpRelative, .symbolic (.jumpTarget 9)]]
    add 40 misalignedSample = .ok (4, rs') ∧ Raisable 40 misalignedSample ∧
      ∃ refs marks, Raised 40 misalignedSample refs marks 4 rs' := by
  intro rs'
  have hrun : add 40 misalignedSample = .ok (4, rs') := by
    -- sorting by place is not evaluated, so the markers are inserted by their places
    refine add_eq_ok_iff.2 ⟨_, 7, [(53, 7), (40, 8), (71, 9)],
      [(⟨1, 1⟩, .symbolic (.jumpTarget 7)), (⟨0, 0⟩, .symbolic (.jumpTarget 8)),
        (⟨1, 7⟩, .symbolic (.jumpTarget 9))], ⟨rfl, rfl, rfl, rfl⟩, rfl, ?_⟩
    rw [insertAll_eq _ (by decide)]
    rfl
  obtain ⟨hraisable, hraised⟩ := add_raises_jumps 40 misalignedSample
  exact ⟨hrun, hraisable.1 ⟨_, hrun⟩, hraised 4 rs' hrun⟩

end ScriptImage.Jumps
