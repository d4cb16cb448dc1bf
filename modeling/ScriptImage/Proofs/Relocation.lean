import ScriptImage.Proofs.Handles
import ScriptImage.Proofs.RoundTrip

/-!
# Relocation

An update of the offsets lays the routines out anew and moves every pointer along.  It
succeeds exactly if all functions and methods point at routines, no routine is empty and
everything fits the offset space:

    (∃ image', updateOffsets image = .ok () image') ↔
      (∀ o ∈ image.header.starts, (image.code.at? o).isSome) ∧
        (∀ r ∈ image.code.routines, r.size ≠ 0) ∧
        image.header.size + image.code.size ≤ maxOffset

`Image.Relocated` says what it then leaves: the same pointers to the same routines, now
back to back after the header, and all else as before.
-/

namespace ScriptImage

/-! ## Pointers by place -/

/-- Where a pointer at a routine stands: with a function, or with a method of a class. -/
inductive EntryPlace where
  | function (k : Nat)
  | method (owner k : Nat)
  deriving DecidableEq, Repr

namespace Header

/-- The offset that stands at a place. -/
def offsetAt? (h : Header) : EntryPlace → Option UInt32
  | .function k => (h.functions.map FunctionEntry.offset)[k]?
  | .method owner k =>
    (h.classes.entries.map fun c => c.methods.map Method.offset)[owner]?.bind fun offsets => offsets[k]?

theorem mem_starts_iff {h : Header} {o : UInt32} :
    o ∈ h.starts ↔ ∃ place, h.offsetAt? place = some o := by
  unfold starts
  rw [List.mem_append, List.mem_flatMap]
  constructor
  · rintro (ho | ⟨c, hc, ho⟩)
    · obtain ⟨k, hk⟩ := List.mem_iff_getElem?.1 ho
      exact ⟨.function k, hk⟩
    · obtain ⟨owner, howner⟩ := List.mem_iff_getElem?.1 hc
      obtain ⟨k, hk⟩ := List.mem_iff_getElem?.1 ho
      refine ⟨.method owner k, ?_⟩
      rw [offsetAt?, List.getElem?_map, howner]
      exact hk
  · rintro ⟨place, hplace⟩
    cases place with
    | function k => exact Or.inl (List.mem_of_getElem? hplace)
    | method owner k =>
      obtain ⟨offsets, howner, hk⟩ := Option.bind_eq_some_iff.1 hplace
      obtain ⟨c, hc, rfl⟩ := List.mem_map.1 (List.mem_of_getElem? howner)
      exact Or.inr ⟨c, hc, List.mem_of_getElem? hk⟩

/-- Two headers whose pointers lead to the same values, list by list, do so place by place. -/
theorem map_offsetAt?_congr {α : Type} {h h' : Header} {f g : UInt32 → α}
    (hfunctions : (h'.functions.map FunctionEntry.offset).map g =
      (h.functions.map FunctionEntry.offset).map f)
    (hmethods : (h'.classes.entries.map fun c => c.methods.map Method.offset).map (List.map g) =
      (h.classes.entries.map fun c => c.methods.map Method.offset).map (List.map f))
    (place : EntryPlace) : (h'.offsetAt? place).map g = (h.offsetAt? place).map f := by
  cases place with
  | function k =>
    have hk := congrArg (fun xs : List α => xs[k]?) hfunctions
    simp only [List.getElem?_map (f := g), List.getElem?_map (f := f)] at hk
    exact hk
  | method owner k =>
    have howner := congrArg (fun xs : List (List α) => xs[owner]?.bind fun ys => ys[k]?) hmethods
    simp only [List.getElem?_map (f := List.map g), List.getElem?_map (f := List.map f),
      Option.bind_map, Function.comp_def, List.getElem?_map (f := g),
      List.getElem?_map (f := f)] at howner
    rw [offsetAt?, offsetAt?, Option.map_bind, Option.map_bind]
    exact howner

end Header

namespace Image

theorem resolve_eq_ok_iff {code : Code} {pointer : Pointer} {o : UInt32} {id : Nat} :
    resolve code pointer o = .ok id ↔ code.at? o = some id := by
  unfold resolve
  cases code.at? o <;> simp

theorem locate_eq_ok_iff {code : Code} {id : Nat} {o : UInt32} :
    locate code id = .ok o ↔ code.offsetOf? id = some o := by
  unfold locate
  cases code.offsetOf? id <;> simp

theorem map_offset_withMethodOffsets {cs : List ClassEntry} {methods : List (List UInt32)}
    (hlen : methods.map List.length = cs.map fun c => c.methods.length) :
    ((withMethodOffsets cs methods).map fun c => c.methods.map Method.offset) = methods := by
  induction cs generalizing methods with
  | nil => exact (List.map_eq_nil_iff.1 hlen).symm
  | cons c cs ih =>
    cases methods with
    | nil => cases hlen
    | cons offsets methods =>
      rw [List.map_cons, List.map_cons, List.cons.injEq] at hlen
      have hoffsets := map_zipWith_of_right (g := Method.offset)
        (f := fun m offset => { m with offset }) (fun _ _ => rfl) hlen.1
      have hrest := ih hlen.2
      unfold withMethodOffsets at hrest ⊢
      rw [List.zipWith_cons_cons, List.map_cons, hrest, hoffsets]

/-! ## When an update succeeds -/

/-- The code after an update, and the numbers of offsets that functions and methods get. -/
theorem fitting_of_updateOffsets {image : Image} {code : Code} {functions : List Nat}
    {methods : List (List Nat)} {fo : List UInt32} {mo : List (List UInt32)}
    (hfunctions : image.functionRoutines = .ok functions)
    (hmethods : image.methodRoutines = .ok methods)
    (hfo : functions.mapM (locate code) = .ok fo)
    (hmo : methods.mapM (fun ids => ids.mapM (locate code)) = .ok mo) :
    Fitting image.header fo mo where
  functions := by rw [Run.length_of_mapM hfo, Run.length_of_mapM hfunctions]
  methods := by
    rw [Run.map_eq_of_mapM (fun _ _ => Run.length_of_mapM) hmo,
      Run.map_eq_of_mapM (fun _ _ => Run.length_of_mapM) hmethods]

/-- A routine that a pointer led to is still there after a layout, at whatever offset. -/
theorem exists_offsets {image : Image} (hcode : image.code.Indexed) (base : UInt32)
    {functions : List Nat} {methods : List (List Nat)} (hfunctions : image.functionRoutines = .ok functions)
    (hmethods : image.methodRoutines = .ok methods) :
    ∃ fo mo, functions.mapM (locate (image.code.laidOut base)) = .ok fo ∧
      methods.mapM (fun ids => ids.mapM (locate (image.code.laidOut base))) = .ok mo := by
  have hlocate : ∀ (p : Pointer) (o : UInt32) (id : Nat), resolve image.code p o = .ok id →
      ∃ o', locate (image.code.laidOut base) id = .ok o' := by
    intro p o id hid
    have hlt := hcode.lt_of_at? (resolve_eq_ok_iff.1 hid)
    exact ⟨_, locate_eq_ok_iff.2 (Code.getElem?_startsFrom hlt)⟩
  obtain ⟨fo, hfo⟩ : ∃ fo, functions.mapM (locate (image.code.laidOut base)) = .ok fo := by
    refine Run.exists_mapM fun id hid => ?_
    obtain ⟨f, -, hf⟩ := Run.exists_of_mem_of_mapM hfunctions hid
    exact hlocate _ _ id hf
  obtain ⟨mo, hmo⟩ : ∃ mo,
      methods.mapM (fun ids => ids.mapM (locate (image.code.laidOut base))) = .ok mo := by
    refine Run.exists_mapM fun ids hids => Run.exists_mapM fun id hid => ?_
    obtain ⟨c, -, hc⟩ := Run.exists_of_mem_of_mapM hmethods hids
    obtain ⟨m, -, hm⟩ := Run.exists_of_mem_of_mapM hc hid
    exact hlocate _ _ id hm
  exact ⟨fo, mo, hfo, hmo⟩

theorem exists_updateOffsets_iff {image : Image} (hcode : image.code.Indexed) :
    (∃ image', updateOffsets image = .ok () image') ↔
      (∀ o ∈ image.header.starts, (image.code.at? o).isSome) ∧
        (∀ r ∈ image.code.routines, r.size ≠ 0) ∧
        image.header.size + image.code.size ≤ maxOffset := by
  constructor
  · rintro ⟨image', h⟩
    have hupdated := updated_of_updateOffsets h
    obtain ⟨functions, methods, -, -, hfunctions, hmethods, -⟩ := updateOffsets_eq_ok_iff.1 h
    refine ⟨fun o ho => ?_, hupdated.sizes, hupdated.fits⟩
    unfold Header.starts at ho
    rw [List.mem_append, List.mem_map, List.mem_flatMap] at ho
    rcases ho with ⟨f, hf, rfl⟩ | ⟨c, hc, ho⟩
    · obtain ⟨id, -, hid⟩ := Run.mem_of_mapM hfunctions hf
      rw [resolve_eq_ok_iff.1 hid]
      rfl
    · obtain ⟨ids, -, hids⟩ := Run.mem_of_mapM hmethods hc
      obtain ⟨m, hm, rfl⟩ := List.mem_map.1 ho
      obtain ⟨id, -, hid⟩ := Run.mem_of_mapM hids hm
      rw [resolve_eq_ok_iff.1 hid]
      rfl
  · rintro ⟨hstarts, hsizes, hfits⟩
    have hsize : image.header.size ≤ maxOffset := by omega
    have hbase := Code.toNat_ofNat_of_le hsize
    have hresolve : ∀ (p : Pointer) (o : UInt32), o ∈ image.header.starts →
        ∃ id, resolve image.code p o = .ok id := by
      intro p o ho
      obtain ⟨id, hid⟩ := Option.isSome_iff_exists.1 (hstarts o ho)
      exact ⟨id, resolve_eq_ok_iff.2 hid⟩
    have hfunction : ∀ f ∈ image.header.functions, f.offset ∈ image.header.starts := fun f hf =>
      List.mem_append_left _ (List.mem_map.2 ⟨f, hf, rfl⟩)
    have hmethod : ∀ c ∈ image.header.classes.entries, ∀ m ∈ c.methods,
        m.offset ∈ image.header.starts := fun c hc m hm =>
      List.mem_append_right _ (List.mem_flatMap.2 ⟨c, hc, List.mem_map.2 ⟨m, hm, rfl⟩⟩)
    obtain ⟨functions, hfunctions⟩ : ∃ functions, image.functionRoutines = .ok functions :=
      Run.exists_mapM fun f hf => hresolve _ _ (hfunction f hf)
    obtain ⟨methods, hmethods⟩ : ∃ methods, image.methodRoutines = .ok methods :=
      Run.exists_mapM fun c hc => Run.exists_mapM fun m hm => hresolve _ _ (hmethod c hc m hm)
    obtain ⟨fo, mo, hfo, hmo⟩ :=
      exists_offsets hcode (UInt32.ofNat image.header.size) hfunctions hmethods
    refine ⟨⟨withOffsets image.header fo mo, _, image.order⟩, updateOffsets_eq_ok_iff.2
      ⟨functions, methods, fo, mo, hfunctions, hmethods, hsize, ?_, hfo, hmo, rfl, rfl⟩⟩
    exact Code.layOut_eq_ok_iff.2 ⟨hsizes, by rw [hbase]; exact hfits, rfl⟩

/-! ## What an update leaves -/

/-- After an update, handles and offsets determine each other. -/
theorem Updated.at?_eq_some_iff {image image' : Image} (h : Updated image image') {o : UInt32}
    {id : Nat} : image'.code.at? o = some id ↔ image'.code.offsetOf? id = some o := by
  have hfits := h.fits
  rw [h.code]
  refine Code.at?_laidOut_iff h.sizes ?_
  rw [Code.toNat_ofNat_of_le (by omega)]
  exact hfits

/-- Pointers by place lead to the same routines after an update as before it. -/
theorem targets_of_updateOffsets {image image' : Image} (h : updateOffsets image = .ok () image')
    (place : EntryPlace) : (image'.header.offsetAt? place).map image'.code.at? =
      (image.header.offsetAt? place).map image.code.at? := by
  have hupdated := updated_of_updateOffsets h
  obtain ⟨functions, methods, fo, mo, hfunctions, hmethods, -, -, hfo, hmo, hheader, -⟩ :=
    updateOffsets_eq_ok_iff.1 h
  have hfitting := fitting_of_updateOffsets hfunctions hmethods hfo hmo
  have hback : ∀ ids os, List.mapM (locate image'.code) ids = .ok os →
      os.map image'.code.at? = ids.map some :=
    fun ids os hos => Run.map_eq_of_mapM
      (fun _ _ hid => hupdated.at?_eq_some_iff.2 (locate_eq_ok_iff.1 hid)) hos
  have hfunctionOffsets : image'.header.functions.map FunctionEntry.offset = fo := by
    rw [hheader]
    exact map_zipWith_of_right (fun _ _ => rfl) hfitting.functions
  have hmethodOffsets : (image'.header.classes.entries.map fun c => c.methods.map Method.offset) = mo := by
    rw [hheader]
    exact map_offset_withMethodOffsets hfitting.methods
  apply Header.map_offsetAt?_congr
  · rw [hfunctionOffsets, hback functions fo hfo, List.map_map]
    exact Run.map_eq_of_mapM (fun _ _ hid => (resolve_eq_ok_iff.1 hid).symm) hfunctions
  · rw [hmethodOffsets, Run.map_eq_of_mapM hback hmo, List.map_map]
    refine Run.map_eq_of_mapM (fun c ids hids => ?_) hmethods
    rw [Function.comp_apply, List.map_map]
    exact Run.map_eq_of_mapM (fun _ _ hid => (resolve_eq_ok_iff.1 hid).symm) hids

/-- What an update leaves of an image. -/
structure Relocated (image image' : Image) : Prop where
  /-- Every function and every method still points at its routine. -/
  targets : ∀ place, (image'.header.offsetAt? place).map image'.code.at? =
    (image.header.offsetAt? place).map image.code.at?
  /-- The stored offsets are running sums of sizes, from the end of the header on. -/
  backToBack : image'.code.BackToBack image'.header.size
  base : image'.code.base.toNat = image'.header.size
  /-- Names, argument counts, symbols, properties and all other tables are as before. -/
  header : image'.header.withoutOffsets = image.header.withoutOffsets
  routines : image'.code.routines = image.code.routines
  order : image'.order = image.order
  /-- Encoding finds no stale offset. -/
  current : image'.stale? = none
  /-- Another update changes nothing. -/
  again : updateOffsets image' = .ok () image'

theorem relocated_of_updateOffsets {image image' : Image} (h : updateOffsets image = .ok () image') :
    Relocated image image' := by
  have hupdated := updated_of_updateOffsets h
  have hfits : image'.header.size + image'.code.size ≤ maxOffset := by
    rw [hupdated.size_header, hupdated.code]
    exact hupdated.fits
  have hbase : (UInt32.ofNat image'.header.size).toNat = image'.header.size :=
    Code.toNat_ofNat_of_le (by omega)
  have hcode : image'.code = image'.code.laidOut (UInt32.ofNat image'.header.size) := by
    rw [hupdated.size_header, hupdated.code]
    rfl
  have hoffsets : image'.code.offsets = Code.startsFrom image'.header.size image'.code.routines := by
    have heq := congrArg Code.offsets hcode
    rw [Code.laidOut, hbase] at heq
    exact heq
  have hsizes : ∀ r ∈ image'.code.routines, r.size ≠ 0 := by
    rw [hupdated.code]
    exact hupdated.sizes
  have hbaseOf : image'.code.base.toNat = image'.header.size := by
    have heq := congrArg (fun c : Code => c.base.toNat) hcode
    exact heq.trans hbase
  refine ⟨targets_of_updateOffsets h, ?_, hbaseOf, hupdated.header, ?_, hupdated.order,
    stale?_eq_none hbaseOf hoffsets hfits,
    updateOffsets_of_laidOut hcode hsizes hfits hupdated.starts⟩
  · have hfrom : (UInt32.ofNat image'.header.size).toNat + image'.code.size ≤ maxOffset := by
      rw [hbase]
      exact hfits
    have hback := Code.backToBack_laidOut hfrom
    rw [← hcode, hbase] at hback
    exact hback
  · rw [hupdated.code]
    rfl

/-- **Relocation.**  An update succeeds exactly if all pointers lead to routines, no routine is
empty and all fits the offset space; then every pointer moves with its routine, and nothing but
offsets changes. -/
theorem updateOffsets_relocates {image : Image} (hcode : image.code.Reachable) :
    ((∃ image', updateOffsets image = .ok () image') ↔
      (∀ o ∈ image.header.starts, (image.code.at? o).isSome) ∧
        (∀ r ∈ image.code.routines, r.size ≠ 0) ∧
        image.header.size + image.code.size ≤ maxOffset) ∧
    ∀ image', updateOffsets image = .ok () image' → Relocated image image' :=
  ⟨exists_updateOffsets_iff hcode.indexed, fun _ => relocated_of_updateOffsets⟩

/-- After an update a pointer stands at the offset of exactly the routine that it led to before. -/
theorem offsetAt?_eq_offsetOf?_iff {image image' : Image} (h : updateOffsets image = .ok () image')
    (hcode : image.code.Indexed) {place : EntryPlace} {o : UInt32}
    (hplace : image.header.offsetAt? place = some o) {id : Nat} :
    image'.header.offsetAt? place = image'.code.offsetOf? id ↔ image.code.at? o = some id := by
  have hupdated := updated_of_updateOffsets h
  obtain ⟨hstarts, -⟩ := (exists_updateOffsets_iff hcode).1 ⟨image', h⟩
  obtain ⟨target, htarget⟩ := Option.isSome_iff_exists.1 (hstarts o (Header.mem_starts_iff.2 ⟨place, hplace⟩))
  have htargets := targets_of_updateOffsets h place
  rw [hplace, Option.map_some, htarget] at htargets
  obtain ⟨o', hplace', hat'⟩ := Option.map_eq_some_iff.1 htargets
  rw [hplace', htarget, eq_comm, ← hupdated.at?_eq_some_iff, hat']

/-- The sample while its code is still placed from zero: both routines were appended to empty code. -/
def appendedSample : Image where
  header := Image.withOffsets sample.header [0] [[2]]
  code := sample.code.routines.foldl (fun c r => (c.push r).1) (.empty 0)
  order := .big

theorem updateOffsets_relocates_appended :
    appendedSample.code.Reachable ∧
      (∀ o ∈ appendedSample.header.starts, (appendedSample.code.at? o).isSome) ∧
      updateOffsets appendedSample = .ok () sample ∧ Relocated appendedSample sample := by
  have hcode : appendedSample.code.Reachable := ((Code.Reachable.empty 0).push _).push _
  have hupdate : updateOffsets appendedSample = .ok () sample := rfl
  have h := updateOffsets_relocates hcode
  exact ⟨hcode, (h.1.1 ⟨_, hupdate⟩).1, hupdate, h.2 _ hupdate⟩

end Image

end ScriptImage
