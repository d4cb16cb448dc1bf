import ScriptImage.Proofs.Footprints
import ScriptImage.Proofs.Plans
import ScriptImage.Proofs.Relocation

/-!
# Failed calls leave no trace

An editing session changes one image in place, by passes, layouts and updates of offsets.
Each of these calls first looks whether it can succeed (`Call.check`) and only then writes.
What it writes can no longer fail: the places in a plan are all there, and a routine that a
pointer led to is still there after the layout.  So

    c.run image = .error stop image' ↔
      image' = image ∧ ∃ e, stop = .refused e ∧ c.check image = .error e

An update of offsets is the one call that could fail halfway, after the code has been laid
out and before the header has been written.  That it does not rests on `Code.Reachable`: in code
that was come by in the ordinary ways, the index leads to routines only.
-/

namespace ScriptImage

/-! ## Updates of offsets -/

namespace Image

variable {image : Image}

/-- What an update finds out before it writes: the routines of functions and methods, and the code
laid out anew. -/
def arrange (image : Image) : Except Error (List Nat × List (List Nat) × Code) := do
  let functions ← image.functionRoutines
  let methods ← image.methodRoutines
  if maxOffset < image.header.size then throw .headerBeyondSpace
  let code ← image.code.layOut (UInt32.ofNat image.header.size)
  return (functions, methods, code)

theorem lift_of_error {α : Type} {x : Except Error α} {e : Error} (h : x = .error e) :
    lift x image = .error e image := by
  rw [h]
  rfl

/-- An update that finds an obstacle has not written anything. -/
theorem updateOffsets_of_arrange_error {e : Error} (h : image.arrange = .error e) :
    updateOffsets image = .error e image := by
  unfold updateOffsets
  rw [Run.bind_of_ok (show (get : ImageM Image) image = .ok image image from rfl)]
  rcases Run.except_bind_eq_error_iff.1 h with h | ⟨functions, hfunctions, h⟩
  · exact Run.bind_of_error (lift_of_error h)
  rw [Run.bind_of_ok (lift_eq_ok_iff.2 ⟨hfunctions, rfl⟩)]
  rcases Run.except_bind_eq_error_iff.1 h with h | ⟨methods, hmethods, h⟩
  · exact Run.bind_of_error (lift_of_error h)
  rw [Run.bind_of_ok (lift_eq_ok_iff.2 ⟨hmethods, rfl⟩)]
  by_cases hsize : maxOffset < image.header.size
  · simp only [if_pos hsize] at h ⊢
    cases h
    rfl
  · simp only [if_neg hsize] at h ⊢
    rcases Run.except_bind_eq_error_iff.1 h with h | ⟨code, -, h⟩
    · exact Run.bind_of_error (lift_of_error h)
    · cases h

/-- An update that finds no obstacle goes through to the end. -/
theorem exists_updateOffsets_of_arrange (hcode : image.code.Indexed) {arranged}
    (h : image.arrange = .ok arranged) : ∃ image', updateOffsets image = .ok () image' := by
  obtain ⟨functions, hfunctions, h⟩ := Run.except_bind_eq_ok_iff.1 h
  obtain ⟨methods, hmethods, h⟩ := Run.except_bind_eq_ok_iff.1 h
  by_cases hsize : maxOffset < image.header.size
  · simp only [if_pos hsize] at h
    cases h
  · simp only [if_neg hsize] at h
    obtain ⟨code, hlayOut, -⟩ := Run.except_bind_eq_ok_iff.1 h
    obtain ⟨hsizes, hfits, rfl⟩ := Code.layOut_eq_ok_iff.1 hlayOut
    obtain ⟨fo, mo, hfo, hmo⟩ := exists_offsets hcode _ hfunctions hmethods
    exact ⟨⟨withOffsets image.header fo mo, _, image.order⟩, updateOffsets_eq_ok_iff.2
      ⟨functions, methods, fo, mo, hfunctions, hmethods, Nat.not_lt.1 hsize, hlayOut, hfo, hmo, rfl, rfl⟩⟩

end Image

/-! ## Calls -/

/-- A call in an editing session. -/
inductive Call where
  | pass (p : Pass)
  /-- Lays the code out from a base and leaves the header alone. -/
  | layOut (base : UInt32)
  | updateOffsets
  deriving DecidableEq

namespace Call

variable {image image' : Image} {c : Call}

def run : Call → InPlace Unit
  | .pass p => do
    let _ ← p.perform
  | .layOut base => do
    let image ← get
    let code ← InPlace.check (image.code.layOut base)
    set { image with code }
  | .updateOffsets => InPlace.ofImageM Image.updateOffsets

/-- What a call finds out before it writes. -/
def check (image : Image) : Call → Except Error Unit
  | .pass p => (p.plan image).map fun _ => ()
  | .layOut base => (image.code.layOut base).map fun _ => ()
  | .updateOffsets => image.arrange.map fun _ => ()

/-- A call fails at its check and leaves the image as it is, or it goes through. -/
theorem run_cases (hcode : image.code.Indexed) (c : Call) :
    (∃ e, c.check image = .error e ∧ c.run image = .error (.refused e) image) ∨
      c.check image = .ok () ∧ ∃ image', c.run image = .ok () image' := by
  cases c with
  | pass p =>
    rcases p.perform_cases image with ⟨e, -, hplan, hrun⟩ | ⟨plan, n, image', -, hplan, hrun⟩
    · left
      refine ⟨e, ?_, Run.bind_of_error hrun⟩
      rw [check, hplan]
      rfl
    · right
      refine ⟨?_, image', Run.bind_of_ok hrun⟩
      rw [check, hplan]
      rfl
  | layOut base =>
    cases hcode' : image.code.layOut base with
    | error e =>
      refine Or.inl ⟨e, ?_, ?_⟩
      · rw [check, hcode']
        rfl
      · refine (Run.bind_of_ok (Run.get_eq_ok_iff.2 ⟨rfl, rfl⟩)).trans (Run.bind_of_error ?_)
        rw [hcode']
        rfl
    | ok code =>
      refine Or.inr ⟨?_, { image with code }, ?_⟩
      · rw [check, hcode']
        rfl
      · refine (Run.bind_of_ok (Run.get_eq_ok_iff.2 ⟨rfl, rfl⟩)).trans ?_
        rw [hcode']
        rfl
  | updateOffsets =>
    cases harrange : image.arrange with
    | error e =>
      refine Or.inl ⟨e, ?_, ?_⟩
      · rw [check, harrange]
        rfl
      · rw [run, InPlace.ofImageM, Image.updateOffsets_of_arrange_error harrange]
    | ok arranged =>
      obtain ⟨image', hupdate⟩ := Image.exists_updateOffsets_of_arrange hcode harrange
      refine Or.inr ⟨?_, image', ?_⟩
      · rw [check, harrange]
        rfl
      · rw [run, InPlace.ofImageM, hupdate]

/-- **Failed calls leave no trace.** A call fails exactly if its check fails, with the error of the
check, and leaves the whole image as it was. So nothing fails once something has been written; in
particular an update never fails once the code has been laid out. -/
theorem fails_without_trace (hcode : image.code.Reachable) {stop : Stop} :
    c.run image = .error stop image' ↔
      image' = image ∧ ∃ e, stop = .refused e ∧ c.check image = .error e := by
  rcases run_cases hcode.indexed c with ⟨e, hcheck, hrun⟩ | ⟨hcheck, image₁, hrun⟩
  · rw [hrun, hcheck]
    constructor
    · intro h
      cases h
      exact ⟨rfl, e, rfl, rfl⟩
    · rintro ⟨rfl, e', rfl, h⟩
      cases h
      rfl
  · rw [hrun, hcheck]
    exact iff_of_false nofun fun ⟨_, _, _, h⟩ => nomatch h

/-- An image with two texts, of which the pool admits the first but not the second, and with a function
that points at no routine. -/
def narrowSample : Image where
  header := { Header.empty .v41 with
    strings := .empty .p8z
    functions := [⟨.letter 102, 0, 7⟩] }
  code := ((Code.empty 0).push
    [.symbolic ⟨.pushStringLiteral, (.letter 98, ())⟩,
      .symbolic ⟨.pushStringLiteral, (⟨List.replicate 300 97, by decide +kernel⟩, ())⟩, .op .endRoutine]).1
  order := .little

theorem fails_without_trace_narrow :
    narrowSample.code.Reachable ∧
      (pass (.remove .strings)).run narrowSample = .error (.refused (.stringTooLong .p8z 300)) narrowSample ∧
      updateOffsets.run narrowSample =
        .error (.refused (.danglingPointer (.function [102]) 7)) narrowSample := by
  have hcode : narrowSample.code.Reachable := (Code.Reachable.empty 0).push _
  have hpass : (pass (.remove .strings)).check narrowSample = .error (.stringTooLong .p8z 300) := by
    decide +kernel
  have hupdate : updateOffsets.check narrowSample = .error (.danglingPointer (.function [102]) 7) := by
    decide +kernel
  exact ⟨hcode, (fails_without_trace hcode).2 ⟨rfl, _, rfl, hpass⟩,
    (fails_without_trace hcode).2 ⟨rfl, _, rfl, hupdate⟩⟩

/-! ## Sessions -/

/-- The image after a call, whether it fails or not. -/
def after (image : Image) (c : Call) : Image :=
  match c.run image with
  | .ok _ image' => image'
  | .error _ image' => image'

/-- Calls keep to the ordinary ways of coming by code. -/
theorem reachable_of_run (hcode : image.code.Reachable) (h : c.run image = .ok () image') :
    image'.code.Reachable := by
  cases c with
  | pass p =>
    obtain ⟨n, image₁, hrun, hlast⟩ := Run.bind_eq_ok_iff.1 h
    cases hlast
    rcases p.perform_cases image with ⟨e, -, -, hfail⟩ | ⟨plan, n', image₂, happly, -, hgoes⟩
    · rw [hfail] at hrun
      cases hrun
    · rw [hgoes] at hrun
      cases hrun
      have hunmoved := Pass.unmoved_of_apply happly
      rw [hunmoved.same]
      exact hcode.rewrite hunmoved.length
  | layOut base =>
    obtain ⟨image₁, image₂, hget, hlay⟩ := Run.bind_eq_ok_iff.1 h
    obtain ⟨rfl, rfl⟩ := Run.get_eq_ok_iff.1 hget
    obtain ⟨code, image₃, hcheck, hset⟩ := Run.bind_eq_ok_iff.1 hlay
    obtain rfl := Run.set_eq_ok_iff.1 hset
    exact hcode.layOut (InPlace.check_eq_ok_iff.1 hcheck).1
  | updateOffsets =>
    have hupdated := Image.updated_of_updateOffsets (InPlace.ofImageM_eq_ok_iff.1 h)
    have hfits := hupdated.fits
    have hbase := Code.toNat_ofNat_of_le (p := image.header.size) (by omega)
    rw [hupdated.code]
    refine hcode.layOut (Code.layOut_eq_ok_iff.2 ⟨hupdated.sizes, ?_, rfl⟩)
    rw [hbase]
    exact hfits

/-- A session, in which calls may fail, is as good as one of those calls alone that go through. -/
theorem exists_sublist (hcode : image.code.Reachable) (cs : List Call) :
    ∃ done : List Call, done.Sublist cs ∧ done.forM run image = .ok ⟨⟩ (cs.foldl after image) := by
  induction cs generalizing image with
  | nil => exact ⟨[], List.Sublist.slnil, rfl⟩
  | cons c cs ih =>
    rcases run_cases hcode.indexed c with ⟨e, -, hrun⟩ | ⟨-, image₁, hrun⟩
    · have hafter : after image c = image := by rw [after, hrun]
      obtain ⟨done, hsub, hdone⟩ := ih hcode
      refine ⟨done, hsub.cons c, ?_⟩
      rw [List.foldl_cons, hafter]
      exact hdone
    · have hafter : after image c = image₁ := by rw [after, hrun]
      obtain ⟨done, hsub, hdone⟩ := ih (reachable_of_run hcode hrun)
      refine ⟨c :: done, hsub.cons_cons c, ?_⟩
      rw [List.foldl_cons, hafter]
      exact (Run.bind_of_ok hrun).trans hdone

end Call

end ScriptImage
