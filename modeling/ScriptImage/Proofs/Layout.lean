import ScriptImage.Image
import ScriptImage.Proofs.Runs

/-!
# Layout

Routines that lie back to back from a position start at running sums of their sizes,
`Code.startsFrom`.  A layout succeeds exactly if no routine is empty and all end within
the offset space, and then stores these starts:

    c.layOut base = .ok c' ↔
      (∀ r ∈ c.routines, r.size ≠ 0) ∧ base.toNat + c.size ≤ maxOffset ∧
        c' = c.laidOut base

An update of an image lays its code out after the header.  Every function and method
follows the routine it pointed at, so afterwards all of them point at starts; an image that
is already laid out and points at starts only is left as it is.
-/

namespace ScriptImage

namespace Code

/-- The starts of routines that lie back to back from a position. -/
def startsFrom : Nat → List Routine → List UInt32
  | _, [] => []
  | p, r :: rs => UInt32.ofNat p :: startsFrom (p + r.size) rs

/-- The code with its routines laid out from a base. -/
def laidOut (c : Code) (base : UInt32) : Code :=
  let offsets := startsFrom base.toNat c.routines
  { c with offsets, index := indexOf offsets, base }

@[simp]
theorem length_startsFrom (p : Nat) (rs : List Routine) : (startsFrom p rs).length = rs.length := by
  induction rs generalizing p with
  | nil => rfl
  | cons r rs ih => rw [startsFrom, List.length_cons, List.length_cons, ih]

/-- Starts depend on the sizes of the routines only. -/
theorem startsFrom_congr {p : Nat} {rs rs' : List Routine}
    (h : rs.map Routine.size = rs'.map Routine.size) : startsFrom p rs = startsFrom p rs' := by
  induction rs generalizing p rs' with
  | nil =>
    cases rs' with
    | nil => rfl
    | cons r' rs' => cases h
  | cons r rs ih =>
    cases rs' with
    | nil => cases h
    | cons r' rs' =>
      rw [List.map_cons, List.map_cons, List.cons.injEq] at h
      rw [startsFrom, startsFrom, h.1, ih h.2]

theorem toNat_ofNat_of_le {p : Nat} (h : p ≤ maxOffset) : (UInt32.ofNat p).toNat = p := by
  rw [UInt32.toNat_ofNat']
  exact Nat.mod_eq_of_lt (by unfold maxOffset at h; omega)

/-- No start lies before the first position. -/
theorem le_of_mem_startsFrom {p : Nat} {rs : List Routine} {o : UInt32}
    (hfits : p + (rs.map Routine.size).sum ≤ maxOffset) (ho : o ∈ startsFrom p rs) : p ≤ o.toNat := by
  induction rs generalizing p with
  | nil => cases ho
  | cons r rs ih =>
    rw [List.map_cons, List.sum_cons] at hfits
    rcases List.mem_cons.1 ho with rfl | ho
    · exact Nat.le_of_eq (toNat_ofNat_of_le (by omega)).symm
    · have := ih (by omega) ho
      omega

/-! ## Laying out -/

theorem eq_of_offsetsFrom {k p : Nat} {rs : List Routine} {offsets : List UInt32} {finish : Nat}
    (h : offsetsFrom k p rs = .ok (offsets, finish)) :
    (∀ r ∈ rs, r.size ≠ 0) ∧ offsets = startsFrom p rs ∧ finish = p + (rs.map Routine.size).sum := by
  induction rs generalizing k p offsets finish with
  | nil =>
    cases h
    exact ⟨fun r hr => absurd hr List.not_mem_nil, rfl, rfl⟩
  | cons r rs ih =>
    rw [offsetsFrom] at h
    split at h
    · cases h
    · next hsize =>
      split at h
      · cases h
      · obtain ⟨⟨offsets', finish'⟩, hrest, hlast⟩ := Run.except_bind_eq_ok_iff.1 h
        cases hlast
        obtain ⟨hsizes, rfl, rfl⟩ := ih hrest
        refine ⟨?_, rfl, ?_⟩
        · intro r' hr'
          rcases List.mem_cons.1 hr' with rfl | hr'
          · exact hsize
          · exact hsizes r' hr'
        · rw [List.map_cons, List.sum_cons]
          omega

theorem offsetsFrom_eq_ok {k p : Nat} {rs : List Routine} (hsizes : ∀ r ∈ rs, r.size ≠ 0)
    (hfits : p + (rs.map Routine.size).sum ≤ maxOffset) :
    offsetsFrom k p rs = .ok (startsFrom p rs, p + (rs.map Routine.size).sum) := by
  induction rs generalizing k p with
  | nil => rfl
  | cons r rs ih =>
    rw [List.map_cons, List.sum_cons] at hfits
    have hrest := ih (k := k + 1) (p := p + r.size)
      (fun r' hr' => hsizes r' (List.mem_cons_of_mem _ hr')) (by omega)
    rw [offsetsFrom, if_neg (hsizes r List.mem_cons_self), if_neg (by omega), hrest, List.map_cons,
      List.sum_cons, ← Nat.add_assoc]
    rfl

theorem layOut_eq_ok_iff {c c' : Code} {base : UInt32} :
    c.layOut base = .ok c' ↔
      (∀ r ∈ c.routines, r.size ≠ 0) ∧ base.toNat + c.size ≤ maxOffset ∧ c' = c.laidOut base := by
  unfold layOut
  rw [Run.except_bind_eq_ok_iff]
  constructor
  · rintro ⟨⟨offsets, finish⟩, hoffsets, hk⟩
    obtain ⟨hsizes, rfl, rfl⟩ := eq_of_offsetsFrom hoffsets
    by_cases hfinish : maxOffset < base.toNat + (c.routines.map Routine.size).sum
    · simp only [if_pos hfinish] at hk
      cases hk
    · simp only [if_neg hfinish] at hk
      cases hk
      exact ⟨hsizes, Nat.not_lt.1 hfinish, rfl⟩
  · rintro ⟨hsizes, hfits, rfl⟩
    refine ⟨_, offsetsFrom_eq_ok hsizes hfits, ?_⟩
    have hfinish : ¬maxOffset < base.toNat + (c.routines.map Routine.size).sum := Nat.not_lt.2 hfits
    simp only [if_neg hfinish]
    rfl

/-! ## From offsets to routines -/

/-- The routine that an index of offsets names has that offset. -/
theorem getElem?_of_lookup_indexOf {offsets : List UInt32} {o : UInt32} {id : Nat}
    (h : (indexOf offsets).lookup o = some id) : offsets[id]? = some o := by
  have hmem : (o, id) ∈ indexOf offsets := by
    obtain ⟨l₁, l₂, hsplit, -⟩ := List.lookup_eq_some_iff.1 h
    rw [hsplit]
    exact List.mem_append_right _ List.mem_cons_self
  rw [indexOf, List.mem_reverse] at hmem
  exact List.mem_zipIdx_iff_getElem?.1 hmem

theorem exists_lookup_indexOf {offsets : List UInt32} {o : UInt32} (h : o ∈ offsets) :
    ∃ id, (indexOf offsets).lookup o = some id := by
  cases hl : (indexOf offsets).lookup o with
  | some id => exact ⟨id, rfl⟩
  | none =>
    obtain ⟨id, hid⟩ := List.mem_iff_getElem?.1 h
    have hmem : (o, id) ∈ indexOf offsets :=
      List.mem_reverse.2 (List.mem_zipIdx_iff_getElem?.2 hid)
    have hne := List.lookup_eq_none_iff.1 hl (o, id) hmem
    simp at hne

end Code

/-! ## Stale offsets -/

theorem Image.firstStale?_eq_none {k p : Nat} {rs : List Routine}
    (hfits : p + (rs.map Routine.size).sum ≤ maxOffset) :
    firstStale? k p (rs.zip (Code.startsFrom p rs)) = none := by
  induction rs generalizing k p with
  | nil => rfl
  | cons r rs ih =>
    rw [List.map_cons, List.sum_cons] at hfits
    rw [Code.startsFrom, List.zip_cons_cons, firstStale?,
      if_pos (Code.toNat_ofNat_of_le (by omega))]
    exact ih (by omega)

theorem Image.stale?_eq_none {image : Image} (hbase : image.code.base.toNat = image.header.size)
    (hoffsets : image.code.offsets = Code.startsFrom image.header.size image.code.routines)
    (hfits : image.header.size + image.code.size ≤ maxOffset) : image.stale? = none := by
  unfold Image.stale?
  simp only [hbase, ne_eq, not_true, if_false]
  rw [Code.placed, hoffsets]
  exact Image.firstStale?_eq_none hfits

/-! ## Updating offsets -/

/-- The class with the offsets of its methods cleared. -/
def ClassEntry.withoutOffsets (c : ClassEntry) : ClassEntry :=
  { c with methods := c.methods.map fun m => { m with offset := 0 } }

/-- The header with all offsets of functions and methods cleared. -/
def Header.withoutOffsets (h : Header) : Header :=
  { h with
    functions := h.functions.map fun f => { f with offset := 0 }
    classes := { h.classes with entries := h.classes.entries.map ClassEntry.withoutOffsets } }

theorem Header.size_withoutOffsets (h : Header) : h.withoutOffsets.size = h.size := by
  simp only [Header.size, Header.withoutOffsets, ClassEntry.withoutOffsets, FunctionEntry.tableSize,
    ClassTable.size,
    List.map_map, Function.comp_def, FunctionEntry.size, ClassEntry.membersSize, List.length_map]
  rfl

section Zip

variable {α β γ : Type}

theorem map_zipWith_of_left {f : α → β → α} {g : α → γ} (h : ∀ a b, g (f a b) = g a) {xs : List α}
    {ys : List β} (hlen : ys.length = xs.length) : (List.zipWith f xs ys).map g = xs.map g := by
  induction xs generalizing ys with
  | nil => rfl
  | cons x xs ih =>
    cases ys with
    | nil => cases hlen
    | cons y ys =>
      rw [List.zipWith_cons_cons, List.map_cons, List.map_cons, h, ih (Nat.succ.inj hlen)]

theorem map_zipWith_of_right {f : α → β → α} {g : α → β} (h : ∀ a b, g (f a b) = b) {xs : List α}
    {ys : List β} (hlen : ys.length = xs.length) : (List.zipWith f xs ys).map g = ys := by
  induction xs generalizing ys with
  | nil => exact (List.length_eq_zero_iff.1 hlen).symm
  | cons x xs ih =>
    cases ys with
    | nil => cases hlen
    | cons y ys =>
      rw [List.zipWith_cons_cons, List.map_cons, h, ih (Nat.succ.inj hlen)]

theorem zipWith_map_self {f : α → β → α} {g : α → β} (h : ∀ a, f a (g a) = a) (xs : List α) :
    List.zipWith f xs (xs.map g) = xs := by
  induction xs with
  | nil => rfl
  | cons x xs ih => rw [List.map_cons, List.zipWith_cons_cons, h, ih]

end Zip

namespace Image

/-- Whether offsets are given for exactly the functions and methods of a header. -/
structure Fitting (h : Header) (functions : List UInt32) (methods : List (List UInt32)) : Prop where
  functions : functions.length = h.functions.length
  methods : methods.map List.length = h.classes.entries.map fun c => c.methods.length

/-- Gives the methods of classes new offsets. -/
def withMethodOffsets (cs : List ClassEntry) (methods : List (List UInt32)) : List ClassEntry :=
  cs.zipWith
    (fun c offsets => { c with methods := c.methods.zipWith (fun m offset => { m with offset }) offsets })
    methods

theorem withMethodOffsets_spec {cs : List ClassEntry} {methods : List (List UInt32)}
    (hlen : methods.map List.length = cs.map fun c => c.methods.length) :
    (withMethodOffsets cs methods).map ClassEntry.withoutOffsets =
      cs.map ClassEntry.withoutOffsets ∧
    (withMethodOffsets cs methods).flatMap (fun c => c.methods.map Method.offset) =
      methods.flatten := by
  induction cs generalizing methods with
  | nil =>
    obtain rfl := List.map_eq_nil_iff.1 hlen
    exact ⟨rfl, rfl⟩
  | cons c cs ih =>
    cases methods with
    | nil => cases hlen
    | cons offsets methods =>
      rw [List.map_cons, List.map_cons, List.cons.injEq] at hlen
      obtain ⟨hcleared, hstarts⟩ := ih hlen.2
      have hclear := map_zipWith_of_left (g := fun m : Method => { m with offset := 0 })
        (f := fun m offset => { m with offset }) (fun _ _ => rfl) hlen.1
      have hoffset := map_zipWith_of_right (g := Method.offset)
        (f := fun m offset => { m with offset }) (fun _ _ => rfl) hlen.1
      unfold withMethodOffsets at *
      refine ⟨?_, ?_⟩
      · rw [List.zipWith_cons_cons, List.map_cons, List.map_cons, hcleared]
        simp only [ClassEntry.withoutOffsets, hclear]
      · rw [List.zipWith_cons_cons, List.flatMap_cons, List.flatten_cons, hstarts, hoffset]

theorem Fitting.withoutOffsets_withOffsets {h : Header} {functions : List UInt32}
    {methods : List (List UInt32)} (hf : Fitting h functions methods) :
    (withOffsets h functions methods).withoutOffsets = h.withoutOffsets := by
  have hfunctions := map_zipWith_of_left (g := fun f : FunctionEntry => { f with offset := 0 })
    (f := fun f offset => { f with offset }) (fun _ _ => rfl) hf.functions
  have hmethods := (withMethodOffsets_spec hf.methods).1
  unfold withMethodOffsets at hmethods
  simp only [withOffsets, Header.withoutOffsets, hfunctions, hmethods]

theorem Fitting.starts_withOffsets {h : Header} {functions : List UInt32}
    {methods : List (List UInt32)} (hf : Fitting h functions methods) :
    (withOffsets h functions methods).starts = functions ++ methods.flatten := by
  have hfunctions := map_zipWith_of_right (g := FunctionEntry.offset)
    (f := fun f offset => { f with offset }) (fun _ _ => rfl) hf.functions
  have hmethods := (withMethodOffsets_spec hf.methods).2
  unfold withMethodOffsets at hmethods
  simp only [withOffsets, Header.starts, hfunctions, hmethods]

/-- Offsets that are there already change nothing. -/
theorem withOffsets_self (h : Header) :
    withOffsets h (h.functions.map FunctionEntry.offset)
      (h.classes.entries.map fun c => c.methods.map Method.offset) = h := by
  have hfunctions := zipWith_map_self (f := fun (f : FunctionEntry) offset => { f with offset })
    (g := FunctionEntry.offset) (fun _ => rfl) h.functions
  have hmethods : ∀ c : ClassEntry, c.methods.zipWith (fun m offset => { m with offset })
      (c.methods.map Method.offset) = c.methods :=
    fun c => zipWith_map_self (fun _ => rfl) c.methods
  have hentries := zipWith_map_self
    (f := fun (c : ClassEntry) offsets =>
      { c with methods := c.methods.zipWith (fun m offset => { m with offset }) offsets })
    (g := fun c => c.methods.map Method.offset) (fun c => by simp only [hmethods]) h.classes.entries
  simp only [withOffsets, hfunctions, hentries]

theorem lift_eq_ok_iff {α : Type} {x : Except Error α} {a : α} {s s' : Image} :
    lift x s = .ok a s' ↔ x = .ok a ∧ s' = s :=
  Run.lift_eq_ok_iff (fun _ => rfl) fun e => ⟨e, rfl⟩

/-- An update resolves all pointers, lays the code out and looks all pointers up again. -/
theorem updateOffsets_eq_ok_iff {image image' : Image} :
    updateOffsets image = .ok () image' ↔
      ∃ functions methods functionOffsets methodOffsets,
        image.functionRoutines = .ok functions ∧ image.methodRoutines = .ok methods ∧
        image.header.size ≤ maxOffset ∧
        image.code.layOut (UInt32.ofNat image.header.size) = .ok image'.code ∧
        functions.mapM (locate image'.code) = .ok functionOffsets ∧
        methods.mapM (fun ids => ids.mapM (locate image'.code)) = .ok methodOffsets ∧
        image'.header = withOffsets image.header functionOffsets methodOffsets ∧
        image'.order = image.order := by
  obtain ⟨header', code', order'⟩ := image'
  simp only [updateOffsets, Run.bind_eq_ok_iff, Run.get_eq_ok_iff, lift_eq_ok_iff,
    Run.guard_eq_ok_iff, Run.set_eq_ok_iff, Run.modify_eq_ok_iff]
  constructor
  · rintro ⟨_, _, ⟨rfl, rfl⟩, functions, _, ⟨hfunctions, rfl⟩, methods, _, ⟨hmethods, rfl⟩, hsize,
      code, _, ⟨hcode, rfl⟩, _, _, rfl, fo, _, ⟨hfo, rfl⟩, mo, _, ⟨hmo, rfl⟩, himage⟩
    obtain ⟨rfl, rfl, rfl⟩ := Image.mk.inj himage
    exact ⟨functions, methods, fo, mo, hfunctions, hmethods, Nat.not_lt.1 hsize, hcode, hfo, hmo,
      rfl, rfl⟩
  · rintro ⟨functions, methods, fo, mo, hfunctions, hmethods, hsize, hcode, hfo, hmo, rfl, rfl⟩
    exact ⟨_, _, ⟨rfl, rfl⟩, functions, _, ⟨hfunctions, rfl⟩, methods, _, ⟨hmethods, rfl⟩,
      Nat.not_lt.2 hsize, code', _, ⟨hcode, rfl⟩, ⟨⟩, _, rfl, fo, _, ⟨hfo, rfl⟩, mo, _, ⟨hmo, rfl⟩, rfl⟩

theorem mem_offsets_of_locate {code : Code} {id : Nat} {o : UInt32} (h : locate code id = .ok o) :
    o ∈ code.offsets := by
  unfold locate at h
  split at h
  · next o' ho =>
    cases h
    exact List.mem_of_getElem? ho
  · cases h

/-- What an update leaves: everything but offsets is as before, the code is laid out after the
header, and all functions and methods point at starts. -/
structure Updated (image image' : Image) : Prop where
  header : image'.header.withoutOffsets = image.header.withoutOffsets
  code : image'.code = image.code.laidOut (UInt32.ofNat image.header.size)
  sizes : ∀ r ∈ image.code.routines, r.size ≠ 0
  fits : image.header.size + image.code.size ≤ maxOffset
  starts : ∀ o ∈ image'.header.starts, o ∈ image'.code.offsets
  order : image'.order = image.order

theorem updated_of_updateOffsets {image image' : Image} (h : updateOffsets image = .ok () image') :
    Updated image image' := by
  obtain ⟨functions, methods, fo, mo, hfunctions, hmethods, hsize, hcode, hfo, hmo, hheader, horder⟩ :=
    updateOffsets_eq_ok_iff.1 h
  have hfitting : Fitting image.header fo mo := by
    refine ⟨?_, ?_⟩
    · rw [Run.length_of_mapM hfo, Run.length_of_mapM hfunctions]
    · -- class by class, both traversals keep the number of methods
      rw [Run.map_eq_of_mapM (fun _ _ => Run.length_of_mapM) hmo,
        Run.map_eq_of_mapM (fun _ _ => Run.length_of_mapM) hmethods]
  obtain ⟨hsizes, hfits, hlaid⟩ := Code.layOut_eq_ok_iff.1 hcode
  rw [Code.toNat_ofNat_of_le hsize] at hfits
  refine ⟨?_, hlaid, hsizes, hfits, ?_, horder⟩
  · rw [hheader, hfitting.withoutOffsets_withOffsets]
  · intro o ho
    rw [hheader, hfitting.starts_withOffsets, List.mem_append, List.mem_flatten] at ho
    rcases ho with ho | ⟨os, hos, ho⟩
    · obtain ⟨id, -, hid⟩ := Run.exists_of_mem_of_mapM hfo ho
      exact mem_offsets_of_locate hid
    · obtain ⟨ids, -, hids⟩ := Run.exists_of_mem_of_mapM hmo hos
      obtain ⟨id, -, hid⟩ := Run.exists_of_mem_of_mapM hids ho
      exact mem_offsets_of_locate hid

/-- An image that is laid out, and whose functions and methods point at starts, stays. -/
theorem updateOffsets_of_laidOut {image : Image}
    (hcode : image.code = image.code.laidOut (UInt32.ofNat image.header.size))
    (hsizes : ∀ r ∈ image.code.routines, r.size ≠ 0)
    (hfits : image.header.size + image.code.size ≤ maxOffset)
    (hstarts : ∀ o ∈ image.header.starts, o ∈ image.code.offsets) :
    updateOffsets image = .ok () image := by
  have hindex : image.code.index = Code.indexOf image.code.offsets := by
    rw [hcode]
    rfl
  have hresolve : ∀ (p : Pointer) (o : UInt32), o ∈ image.code.offsets →
      ∃ id, resolve image.code p o = .ok id ∧ locate image.code id = .ok o := by
    intro p o ho
    obtain ⟨id, hid⟩ := Code.exists_lookup_indexOf ho
    have hat : image.code.at? o = some id := by rw [Code.at?, hindex, hid]
    have hoffset : image.code.offsetOf? id = some o := Code.getElem?_of_lookup_indexOf hid
    exact ⟨id, by rw [resolve, hat], by rw [locate, hoffset]⟩
  have hfunction : ∀ f ∈ image.header.functions, f.offset ∈ image.code.offsets := fun f hf =>
    hstarts _ (List.mem_append_left _ (List.mem_map.2 ⟨f, hf, rfl⟩))
  have hmethod : ∀ c ∈ image.header.classes.entries, ∀ m ∈ c.methods,
      m.offset ∈ image.code.offsets := fun c hc m hm =>
    hstarts _ (List.mem_append_right _ (List.mem_flatMap.2 ⟨c, hc, List.mem_map.2 ⟨m, hm, rfl⟩⟩))
  obtain ⟨functions, hfunctions, hfo⟩ := Run.exists_mapM_mapM (k := FunctionEntry.offset)
    fun f hf => hresolve (.function f.name.bytes) f.offset (hfunction f hf)
  obtain ⟨methods, hmethods, hmo⟩ := Run.exists_mapM_mapM (k := fun c => c.methods.map Method.offset)
    (g := fun ids : List Nat => ids.mapM (locate image.code)) fun c hc =>
      Run.exists_mapM_mapM (k := Method.offset) fun m hm =>
        hresolve (.method c.name.bytes) m.offset (hmethod c hc m hm)
  have hsize : image.header.size ≤ maxOffset := by omega
  refine updateOffsets_eq_ok_iff.2 ⟨functions, methods, _, _, hfunctions, hmethods, hsize, ?_, hfo,
    hmo, (withOffsets_self image.header).symm, rfl⟩
  refine Code.layOut_eq_ok_iff.2 ⟨hsizes, ?_, hcode⟩
  rw [Code.toNat_ofNat_of_le hsize]
  exact hfits

end Image

end ScriptImage
