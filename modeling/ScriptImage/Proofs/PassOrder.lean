import ScriptImage.Proofs.PassRuns

/-!
# The order of removing passes

Two removing passes on different subjects do not see what the other one does: neither the
positions nor the markers nor the part of the header that their instructions refer to.  So
they can change places (`Cleared.swap`), and passes that succeed in one order succeed in
every other order, with the same result:

    Clears order image image' → order.Perm order' → Clears order' image image'

What a pass counts are its own instructions in the image before all passes.
-/

namespace ScriptImage

variable {s t : Subject} {image image' image₁ image₂ : Image} {n m : Nat}

/-! ## What a pass leaves to the others -/

/-- A pass leaves the instructions of the others, in all routines. -/
theorem Routine.about_of_along {F : Int → Routine → Frame} {p : Int} {rs rs' : List Routine}
    (hst : s ≠ t) (h : Along (fun start r r' => r.Lowered t (F start r) start r') p rs rs') :
    about s rs' = about s rs := by
  unfold about
  induction h with
  | nil => rfl
  | cons hr _ ih => rw [List.flatMap_cons, List.flatMap_cons, hr.filter_of_ne hst, ih]

namespace Image

/-- Lowering a routine changes nothing that the instructions of another pass see of it. -/
theorem frame_agrees_of_lowered (hst : s ≠ t) {G : Frame} {start : Int} {r r' : Routine}
    (h : r.Lowered t G start r') : Frame.Agrees s (image.frame start r') (image.frame start r) := by
  cases s with
  | branches =>
    refine ⟨rfl, h.size.symm, (h.marksFrom picksMarkers_branchId? (fun m hm => ?_) 0).symm⟩
    refine branchId?_eq_none ?_
    rw [hm]
    exact fun heq => hst (Option.some.inj heq).symm
  | jumps => exact ⟨rfl, rfl⟩
  | strings => rfl
  | symbols => rfl
  | globals => rfl
  | classes => rfl

/-- Lowering all routines changes nothing that the instructions of another pass see of the rest. -/
theorem frame_agrees_of_along (hst : s ≠ t) {F : Int → Routine → Frame} (hbase : image'.code.base = image.code.base)
    (h : Along (fun start r r' => r.Lowered t (F start r) start r') image.code.base.toNat
      image.code.routines image'.code.routines) (header : Header) (start : Int) (r : Routine) :
    Frame.Agrees s ((image'.frame start r).withHeader header) ((image.frame start r).withHeader header) := by
  cases s with
  | branches => exact ⟨rfl, rfl, rfl⟩
  | jumps =>
    have hsize : image'.code.size = image.code.size := by
      unfold Code.size
      rw [h.map_congr Routine.size fun hr => hr.size]
    have hmarkers : Jumps.markers image.code.base.toNat image'.code.routines =
        Jumps.markers image.code.base.toNat image.code.routines := by
      refine h.jumpMarkers_eq (fun hr => hr.size) fun hr => ?_
      refine hr.marksFrom picksMarkers_jumpId? (fun m hm => jumpId?_eq_none ?_) _
      rw [hm]
      exact fun heq => hst (Option.some.inj heq).symm
    refine ⟨?_, ?_⟩
    · show (image.code.base.toNat + image.code.size : Int) = image'.code.base.toNat + image'.code.size
      rw [hbase, hsize]
    · show Jumps.markers image.code.base.toNat image.code.routines =
        Jumps.markers image'.code.base.toNat image'.code.routines
      rw [hbase, hmarkers]
  | strings => rfl
  | symbols => rfl
  | globals => rfl
  | classes => rfl

namespace Cleared

theorem base (h : image.Cleared s n image') : image'.code.base = image.code.base := by
  rw [h.same]
  rfl

theorem about_of_ne (hst : s ≠ t) (h : image.Cleared t n image') :
    Routine.about s image'.code.routines = Routine.about s image.code.routines :=
  Routine.about_of_along hst h.lowered

/-- A pass leaves what the others have to do. -/
theorem remaining_of_ne (hst : s ≠ t) (h : image.Cleared t n image') :
    Routine.remaining s image'.code.routines = Routine.remaining s image.code.routines := by
  unfold Routine.remaining
  rw [h.about_of_ne hst]

/-- Two passes on different subjects can change places. -/
theorem swap (hst : s ≠ t) (ht : image.Cleared t n image₁) (hs : image₁.Cleared s m image₂) :
    ∃ image₁', image.Cleared s m image₁' ∧ image₁'.Cleared t n image₂ := by
  let header' := image.header.adopt s image₂.header
  -- first with the instructions of the second pass seen from the routines as they are
  have hroutines : ∃ rs',
      Along (fun start r r' => r.Lowered s ((image.frame start r).withHeader header') start r')
        image.code.base.toNat image.code.routines rs' ∧
      Along (fun start r r' => r.Lowered t ((image.frame start r).withHeader image₁.header) start r')
        image.code.base.toNat rs' image₂.code.routines := by
    have hlowered := hs.lowered
    rw [ht.base] at hlowered
    refine Along.swap (fun hr => hr.size) (fun hr => hr.size) ?_ ht.lowered hlowered
    intro p r r₁ r₂ hr₁ hr₂
    obtain ⟨r₁', hr₁', hr₂'⟩ := hr₁.swap hst hr₂
    refine ⟨r₁', hr₁'.congr ?_, hr₂'.congr ?_⟩
    · refine ((frame_agrees_of_along hst ht.base ht.lowered _ p r₁).trans ?_).trans
        (Frame.agrees_adopt image.header image₂.header)
      exact (frame_agrees_of_lowered hst hr₁).withHeader _
    · exact ((frame_agrees_of_lowered hst.symm hr₁').withHeader _).symm
  obtain ⟨rs', hs', ht'⟩ := hroutines
  let image₁' : Image := { image.withRoutines rs' with header := header' }
  have hheader : image₂.header = header'.adopt t image₂.header := by
    calc image₂.header
        = (image.header.adopt t image₁.header).adopt s image₂.header := by rw [← ht.header, ← hs.header]
      _ = header'.adopt t image₁.header := Header.adopt_comm hst _ _ _
      _ = header'.adopt t (image₁.header.adopt s image₂.header) :=
        (Header.adopt_adopt_of_ne hst _ _ _).symm
      _ = header'.adopt t image₂.header := by rw [← hs.header]
  have hcleared : image.Cleared s m image₁' := by
    refine ⟨?_, ?_, ?_, rfl, hs'⟩
    · refine (Subject.takes_adopt_right _).2 ?_
      have htakes := (Subject.takes_congr (ht.about_of_ne hst)).1 hs.takes
      rw [ht.header] at htakes
      exact (Subject.takes_adopt_left hst _).1 htakes
    · rw [hs.count, ht.remaining_of_ne hst]
    · exact (Header.adopt_adopt _ _ _ _).symm
  refine ⟨image₁', hcleared, ?_, ?_, hheader, ?_, ?_⟩
  · have htakes := (Subject.takes_adopt_right_of_ne hst.symm image₂.header).2 ht.takes
    rw [← hs.header] at htakes
    refine (Subject.takes_congr (hcleared.about_of_ne hst.symm)).2 ?_
    exact (Subject.takes_adopt_left hst.symm _).2 htakes
  · rw [ht.count, hcleared.remaining_of_ne hst.symm]
  · have hsame := hs.same
    rw [ht.same] at hsame
    exact hsame
  · refine ht'.imp fun {p r r'} hr => hr.congr ?_
    have hframes : Frame.Agrees t ((image₁'.frame p r).withHeader image₁.header)
        ((image.frame p r).withHeader image₁.header) := @frame_agrees_of_along t s image image₁' hst.symm _ rfl hs' _ p r
    have hheaders : Frame.Agrees t ((image₁'.frame p r).withHeader image₁.header)
        ((image₁'.frame p r).withHeader (image₁.header.adopt s image₂.header)) :=
      (Frame.agrees_adopt_of_ne hst.symm _ _).symm
    rw [← hs.header] at hheaders
    exact hframes.symm.trans hheaders

end Cleared

/-! ## Runs -/

/-- Removing passes on these subjects, one after the other, lead from an image to another. -/
inductive Clears : List Subject → Image → Image → Prop
  | nil {image : Image} : Clears [] image image
  | cons {s : Subject} {order : List Subject} {image image₁ image' : Image} {n : Nat}
      (h : image.Cleared s n image₁) (hrest : Clears order image₁ image') :
      Clears (s :: order) image image'

/-- The order does not matter. -/
theorem Clears.perm {order order' : List Subject} (h : Clears order image image')
    (hperm : order.Perm order') : Clears order' image image' := by
  induction hperm generalizing image with
  | nil => exact h
  | cons s _ ih =>
    cases h with
    | cons hs hrest => exact cons hs (ih hrest)
  | swap s t order =>
    cases h with
    | cons ht h =>
      cases h with
      | cons hs hrest =>
        by_cases hst : s = t
        · rw [hst] at hs ⊢
          exact cons ht (cons hs hrest)
        · obtain ⟨image₁', hs', ht'⟩ := ht.swap hst hs
          exact cons hs' (cons ht' hrest)
  | trans _ _ ih ih' => exact ih' (ih h)

end Image

namespace Pass

/-- Removes symbolic operands for the given subjects, one after the other. Answers how many
instructions each pass changed. -/
def removeAll (order : List Subject) : ImageM (List Nat) :=
  order.mapM fun s => (remove s).run

/-- Removing passes on different subjects each change the instructions that they find in the image
before all of them. -/
theorem removeAll_eq_ok_iff {order : List Subject} (hnodup : order.Nodup) {counts : List Nat} :
    removeAll order image = .ok counts image' ↔
      counts = order.map (fun s => Routine.remaining s image.code.routines) ∧
        Image.Clears order image image' := by
  unfold removeAll
  induction order generalizing image counts with
  | nil =>
    rw [List.mapM_nil, Run.pure_eq_ok_iff]
    refine and_congr_right fun _ => ⟨?_, ?_⟩
    · rintro rfl
      exact Image.Clears.nil
    · intro h
      cases h
      rfl
  | cons s order ih =>
    obtain ⟨hs, hnodup⟩ := List.nodup_cons.1 hnodup
    -- the counts of the later passes are those before the first one
    have hlater : ∀ {n image₁}, image.Cleared s n image₁ →
        order.map (fun t => Routine.remaining t image₁.code.routines) =
          order.map (fun t => Routine.remaining t image.code.routines) := by
      intro n image₁ h
      refine List.map_congr_left fun t ht => h.remaining_of_ne ?_
      rintro rfl
      exact hs ht
    rw [List.mapM_cons, Run.bind_eq_ok_iff]
    constructor
    · rintro ⟨n, image₁, hrun, h⟩
      obtain ⟨counts', image₂, hrest, h⟩ := Run.bind_eq_ok_iff.1 h
      obtain ⟨rfl, rfl⟩ := Run.pure_eq_ok_iff.1 h
      obtain ⟨rfl, hclears⟩ := (ih hnodup).1 hrest
      have hcleared := apply_remove_eq_ok_iff.1 (run_eq_ok_iff.1 hrun)
      refine ⟨?_, Image.Clears.cons hcleared hclears⟩
      rw [List.map_cons, hlater hcleared, hcleared.count]
    · rintro ⟨rfl, h⟩
      cases h with
      | @cons _ _ _ image₁ _ n hcleared hrest =>
        have hcounts := (ih hnodup).2 ⟨rfl, hrest⟩
        refine ⟨n, image₁, run_eq_ok_iff.2 (apply_remove_eq_ok_iff.2 hcleared), ?_⟩
        refine Run.bind_eq_ok_iff.2 ⟨_, _, hcounts, Run.pure_eq_ok_iff.2 ⟨?_, rfl⟩⟩
        rw [List.map_cons, hlater hcleared, hcleared.count]

/-- **Lowering does not depend on the order.** If the removing passes on all subjects succeed in one
order, they succeed in every other order, with the same counts and the same image. Each count is the
number of instructions of its subject in the image before. -/
theorem removeAll_order {order₁ order₂ : List Subject} (h₁ : order₁.Perm Subject.all)
    (h₂ : order₂.Perm Subject.all) {counts : List Nat}
    (hrun : removeAll order₁ image = .ok counts image') :
    counts = order₁.map (fun s => Routine.remaining s image.code.routines) ∧
      removeAll order₂ image = .ok (order₂.map fun s => Routine.remaining s image.code.routines) image' := by
  have hall : Subject.all.Nodup := by decide
  obtain ⟨hcounts, hclears⟩ := (removeAll_eq_ok_iff (h₁.nodup_iff.2 hall)).1 hrun
  have hperm : order₁.Perm order₂ := h₁.trans h₂.symm
  exact ⟨hcounts, (removeAll_eq_ok_iff (h₂.nodup_iff.2 hall)).2 ⟨rfl, hclears.perm hperm⟩⟩

/-- Hand-written code with symbolic operands of every kind: texts that the pools lack, and the marker
of a branch between a push and its jump. -/
def mixedSample : Image where
  header := { Header.empty .v41 with
    strings := .letters .p16z [97]
    classes := ⟨.one, [⟨.letter 67, [], []⟩]⟩ }
  code :=
    { routines :=
        [[.symbolic ⟨.pushStringLiteral, (.letter 98, ())⟩, .symbolic (.branchTarget 1),
          .symbolic ⟨.pushStringLiteral, (.letter 97, ())⟩,
          .symbolic ⟨.getMemberNamed, (.letter 115, ())⟩, .symbolic (.jumpTarget 2),
          .symbolic ⟨.pushGlobal, (.letter 103, ())⟩],
         [.symbolic (.newObjectNamed (.letter 67)), .symbolic (.branchTarget 3),
          .symbolic (.branchTo .ifTrue 3 0), .symbolic (.jumpPush 2 0), .symbolic (.branchTarget 4),
          .op .jumpRelative]]
      offsets := [7, 0]
      index := [(7, 0)]
      base := 7 }
  order := .little

/-- The same code with raw operands. -/
def mixedLowered : Image where
  header := { mixedSample.header with
    strings := .letters .p16z [97, 98]
    symbols := .letters .p8z [115]
    globals := .letters .p8z [103] }
  code := { mixedSample.code with
    routines :=
      [[.op ⟨.pushString, (1, ())⟩, .op ⟨.pushString, (0, ())⟩, .op ⟨.getMember, (0, ())⟩,
        .op ⟨.pushVariable, (0x8000, ())⟩],
       [.op (.newObject 0), .op (.branch .ifTrue (-3)), .op (.pushInt32 (-15)), .op .jumpRelative]] }
  order := .little

/-- Markers of jumps first, pools last. -/
theorem removeAll_order_mixed :
    Subject.all.Perm Subject.all ∧
      [Subject.jumps, .classes, .branches, .strings, .globals, .symbols].Perm Subject.all ∧
      removeAll Subject.all mixedSample = .ok [2, 1, 1, 1, 1, 1] mixedLowered ∧
      removeAll [.jumps, .classes, .branches, .strings, .globals, .symbols] mixedSample =
        .ok [1, 1, 1, 2, 1, 1] mixedLowered := by
  have horder : [Subject.jumps, .classes, .branches, .strings, .globals, .symbols].Perm Subject.all := by
    decide
  have hrun : removeAll Subject.all mixedSample = .ok [2, 1, 1, 1, 1, 1] mixedLowered := by
    decide +kernel
  exact ⟨List.Perm.refl _, horder, hrun, (removeAll_order (List.Perm.refl _) horder hrun).2⟩

end Pass

end ScriptImage
