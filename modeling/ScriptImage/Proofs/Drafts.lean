import ScriptImage.Proofs.OffsetMap
import ScriptImage.Proofs.Relocation

/-!
# Drafts

While a file is being built, a routine that is appended has only a temporary offset: the
position after the last routine as that one was last seen.  Whoever points at the routine
records this offset, and the next update replaces it.  A `Draft` is an image together with
the handles and temporary offsets it has handed out and the entries in which they were
recorded.

Two routines can be handed the same temporary offset: nothing lies between them if the first
is still empty when the second is appended, or if the offset space is used up.  An update
then takes both entries for entries of the second routine.  This is the only way to lose an
owner (`Draft.keeps_owner_iff`): an entry follows the routine with handle `id` exactly if, when
the routine after it was appended, the routine `id` did not stall the offsets.
-/

namespace ScriptImage

/-! ## Temporary offsets -/

namespace Code

/-- A routine that is appended now is handed the offset of the last routine: that one takes no
room as far as offsets can tell, or is at the greatest offset. -/
def Stalls (c : Code) : Prop :=
  ∃ r o, c.routines.getLast? = some r ∧ c.offsets.getLast? = some o ∧
    (r.size % 2 ^ 32 = 0 ∨ o.toNat = maxOffset)

/-- The code stalls exactly if the next routine is handed the offset of the last one. -/
theorem Indexed.stalls_iff {c : Code} (h : c.Indexed) {o : UInt32}
    (ho : c.offsets.getLast? = some o) : c.Stalls ↔ c.endOffset = o := by
  obtain ⟨r, hr⟩ := h.exists_last ho
  rw [endOffset_of_getLast? hr ho, addOffset_eq_iff]
  constructor
  · rintro ⟨r', o', hr', ho', hstall⟩
    obtain rfl := Option.some.inj (hr.symm.trans hr')
    obtain rfl := Option.some.inj (ho.symm.trans ho')
    exact hstall
  · intro hstall
    exact ⟨r, o, hr, ho, hstall⟩

/-- Between two routines with one offset all have that offset. -/
theorem Ascending.offsetOf?_succ {c : Code} (h : c.Ascending) {id later : Nat} {o : UInt32}
    (hid : c.offsetOf? id = some o) (hlt : id < later) (hlater : c.offsetOf? later = some o) :
    c.offsetOf? (id + 1) = some o := by
  obtain ⟨hidlt, hid⟩ := List.getElem?_eq_some_iff.1 hid
  obtain ⟨hlaterlt, hlater⟩ := List.getElem?_eq_some_iff.1 hlater
  have hpairs := List.pairwise_iff_getElem.1 h
  rcases Nat.eq_or_lt_of_le (Nat.succ_le_of_lt hlt) with rfl | hsucc
  · exact List.getElem?_eq_some_iff.2 ⟨hlaterlt, hlater⟩
  · have hnext : id + 1 < c.offsets.length := by omega
    have hle := hpairs id (id + 1) hidlt hnext (Nat.lt_succ_self id)
    have hge := hpairs (id + 1) later hnext hlaterlt hsucc
    rw [hid] at hle
    rw [hlater] at hge
    exact List.getElem?_eq_some_iff.2 ⟨hnext, UInt32.le_antisymm hge hle⟩

end Code

/-! ## New entries -/

/-- An entry to be added to a header: a function, or a method of a class that is there. -/
inductive NewEntry where
  | function (name : Name) (argCount : UInt8)
  | method (owner : Nat) (symbol : UInt16)
  deriving DecidableEq

namespace Header

/-- Adds an entry that points at an offset, and tells its place. -/
def addEntry (h : Header) (offset : UInt32) : NewEntry → Option (Header × EntryPlace)
  | .function name argCount =>
    some ({ h with functions := h.functions ++ [⟨name, argCount, offset⟩] },
      .function h.functions.length)
  | .method owner symbol =>
    h.classes.entries[owner]?.map fun c =>
      let c' := { c with methods := c.methods ++ [⟨symbol, offset⟩] }
      ({ h with classes := { h.classes with entries := h.classes.entries.set owner c' } },
        .method owner c.methods.length)

/-- Adds a class that has no methods yet. -/
def addClass (h : Header) (name : Name) (properties : List UInt16) : Header :=
  { h with classes := { h.classes with entries := h.classes.entries ++ [⟨name, properties, []⟩] } }

theorem offsetAt?_method {h : Header} {owner k : Nat} :
    h.offsetAt? (.method owner k) =
      (h.classes.entries[owner]?.bind fun c => c.methods[k]?).map Method.offset := by
  rw [offsetAt?, List.getElem?_map]
  cases h.classes.entries[owner]? <;> simp

/-- The new entry points at the offset, and all other entries stay. -/
theorem offsetAt?_addEntry {h h' : Header} {o : UInt32} {e : NewEntry} {place : EntryPlace}
    (hadd : h.addEntry o e = some (h', place)) :
    h'.offsetAt? place = some o ∧ ∀ p t, h.offsetAt? p = some t → h'.offsetAt? p = some t := by
  cases e with
  | function name argCount =>
    obtain ⟨rfl, rfl⟩ := Prod.mk.inj (Option.some.inj hadd)
    refine ⟨by simp [offsetAt?], fun p t hp => ?_⟩
    cases p with
    | function k =>
      obtain ⟨hk, -⟩ := List.getElem?_eq_some_iff.1 hp
      rw [offsetAt?, List.map_append, List.getElem?_append_left hk]
      exact hp
    | method owner k => exact hp
  | method owner symbol =>
    obtain ⟨c, hc, heq⟩ := Option.map_eq_some_iff.1 hadd
    obtain ⟨rfl, rfl⟩ := Prod.mk.inj heq
    obtain ⟨hlt, -⟩ := List.getElem?_eq_some_iff.1 hc
    refine ⟨by simp [offsetAt?_method, hlt], fun p t hp => ?_⟩
    cases p with
    | function k => exact hp
    | method owner' k =>
      rw [offsetAt?_method] at hp ⊢
      by_cases howner : owner = owner'
      · subst howner
        rw [hc, Option.bind_some] at hp
        have hk : k < c.methods.length := by
          obtain ⟨m, hm, -⟩ := Option.map_eq_some_iff.1 hp
          exact (List.getElem?_eq_some_iff.1 hm).1
        simp only [List.getElem?_set_self hlt, Option.bind_some, List.getElem?_append_left hk]
        exact hp
      · simp only [List.getElem?_set_ne howner]
        exact hp

theorem offsetAt?_addClass {h : Header} {name : Name} {properties : List UInt16} {p : EntryPlace}
    {t : UInt32} (hp : h.offsetAt? p = some t) :
    (h.addClass name properties).offsetAt? p = some t := by
  cases p with
  | function k => exact hp
  | method owner k =>
    rw [offsetAt?_method] at hp ⊢
    have hlt : owner < h.classes.entries.length := by
      obtain ⟨m, hm, -⟩ := Option.map_eq_some_iff.1 hp
      obtain ⟨c, hc, -⟩ := Option.bind_eq_some_iff.1 hm
      exact (List.getElem?_eq_some_iff.1 hc).1
    rw [addClass, List.getElem?_append_left hlt]
    exact hp

end Header

/-! ## Runs -/

/-- An entry that was added for a routine: its place, the handle of the routine and the temporary
offset that came with the handle. -/
structure OwnedEntry where
  place : EntryPlace
  id : Nat
  offset : UInt32
  deriving DecidableEq, Repr

/-- An image that is being built, what was handed out, and the entries that record it. -/
structure Draft where
  image : Image
  handed : List (Nat × UInt32)
  owned : List OwnedEntry

namespace Draft

/-- What is done to a draft. -/
inductive Step where
  /-- Appends a routine; an empty one is to be filled later. -/
  | append (r : Routine)
  /-- Fills or edits a routine. -/
  | edit (id : Nat) (f : Routine → Routine)
  | addClass (name : Name) (properties : List UInt16)
  /-- Records what was handed out as number `k` in a new entry. -/
  | record (k : Nat) (e : NewEntry)

/-- A draft that starts from an image. -/
def ofImage (image : Image) : Draft :=
  ⟨image, [], []⟩

/-- Records what was handed out as number `k` in a new entry, if both are there. -/
def record (d : Draft) (k : Nat) (e : NewEntry) : Draft :=
  match d.handed[k]? with
  | none => d
  | some (id, offset) =>
    match d.image.header.addEntry offset e with
    | none => d
    | some (header, place) =>
      { d with image := { d.image with header }, owned := d.owned ++ [⟨place, id, offset⟩] }

def step (d : Draft) : Step → Draft
  | .append r =>
    let (code, id, offset) := d.image.code.push r
    { d with image := { d.image with code }, handed := d.handed ++ [(id, offset)] }
  | .edit id f => { d with image := { d.image with code := d.image.code.edit id f } }
  | .addClass name properties =>
    { d with image := { d.image with header := d.image.header.addClass name properties } }
  | .record k e => d.record k e

def run (d : Draft) (steps : List Step) : Draft :=
  steps.foldl step d

theorem run_append (d : Draft) (before after : List Step) :
    d.run (before ++ after) = (d.run before).run after :=
  List.foldl_append

theorem record_cases (d : Draft) (k : Nat) (e : NewEntry) :
    d.record k e = d ∨
      ∃ id offset header place, (id, offset) ∈ d.handed ∧
        d.image.header.addEntry offset e = some (header, place) ∧
        d.record k e = { d with
          image := { d.image with header }, owned := d.owned ++ [⟨place, id, offset⟩] } := by
  unfold record
  cases hk : d.handed[k]? with
  | none => exact Or.inl rfl
  | some pair =>
    obtain ⟨id, offset⟩ := pair
    cases hadd : d.image.header.addEntry offset e with
    | none =>
      left
      simp only [hadd]
    | some added =>
      obtain ⟨header, place⟩ := added
      right
      refine ⟨id, offset, header, place, List.mem_of_getElem? hk, hadd, ?_⟩
      simp only [hadd]

theorem offsetOf?_step {d : Draft} {id : Nat} {o : UInt32}
    (h : d.image.code.offsetOf? id = some o) (s : Step) :
    (d.step s).image.code.offsetOf? id = some o := by
  cases s with
  | append r =>
    show (d.image.code.offsets ++ [_])[id]? = some o
    rw [List.getElem?_append_left (List.getElem?_eq_some_iff.1 h).1]
    exact h
  | edit id f => exact h
  | addClass name properties => exact h
  | record k e =>
    show (d.record k e).image.code.offsetOf? id = some o
    obtain heq | ⟨_, _, _, _, -, -, heq⟩ := d.record_cases k e
    · rw [heq]
      exact h
    · rw [heq]
      exact h

/-- What holds of a draft of which the first `first` routines were there from the start. -/
structure Sound (first : Nat) (d : Draft) : Prop where
  indexed : d.image.code.Indexed
  ascending : d.image.code.Ascending
  first_le : first ≤ d.image.code.routines.length
  handed : ∀ e ∈ d.handed, first ≤ e.1 ∧ d.image.code.offsetOf? e.1 = some e.2
  owned : ∀ e ∈ d.owned, (e.id, e.offset) ∈ d.handed ∧ d.image.header.offsetAt? e.place = some e.offset

theorem Sound.step {first : Nat} {d : Draft} (h : d.Sound first) (s : Step) :
    (d.step s).Sound first := by
  cases s with
  | append r =>
    refine ⟨h.indexed.push r, h.ascending.push h.indexed r, ?_, fun e he => ?_, fun e he => ?_⟩
    · have := h.first_le
      show first ≤ (d.image.code.routines ++ [r]).length
      rw [List.length_append]
      omega
    · rcases List.mem_append.1 he with he | he
      · obtain ⟨hfirst, hoffset⟩ := h.handed e he
        exact ⟨hfirst, offsetOf?_step hoffset (.append r)⟩
      · obtain rfl := List.mem_singleton.1 he
        refine ⟨h.first_le, ?_⟩
        show (d.image.code.offsets ++ [_])[d.image.code.routines.length]? = _
        rw [← h.indexed.length, List.getElem?_concat_length]
    · obtain ⟨hhanded, hplace⟩ := h.owned e he
      exact ⟨List.mem_append_left _ hhanded, hplace⟩
  | edit id f =>
    have hlen : (d.image.code.routines.modify id f).length = d.image.code.routines.length :=
      List.length_modify f _ id
    exact ⟨⟨h.indexed.length.trans hlen.symm, h.indexed.index⟩, h.ascending,
      Nat.le_trans h.first_le (Nat.le_of_eq hlen.symm), h.handed, h.owned⟩
  | addClass name properties =>
    refine ⟨h.indexed, h.ascending, h.first_le, h.handed, fun e he => ?_⟩
    obtain ⟨hhanded, hplace⟩ := h.owned e he
    exact ⟨hhanded, Header.offsetAt?_addClass hplace⟩
  | record k e =>
    show (d.record k e).Sound first
    obtain heq | ⟨id, offset, header, place, hmem, hadd, heq⟩ := d.record_cases k e
    · rw [heq]
      exact h
    · obtain ⟨hnew, hold⟩ := Header.offsetAt?_addEntry hadd
      rw [heq]
      refine ⟨h.indexed, h.ascending, h.first_le, h.handed, fun e' he' => ?_⟩
      rcases List.mem_append.1 he' with he' | he'
      · obtain ⟨hhanded, hplace⟩ := h.owned e' he'
        exact ⟨hhanded, hold _ _ hplace⟩
      · obtain rfl := List.mem_singleton.1 he'
        exact ⟨hmem, hnew⟩

theorem Sound.run {first : Nat} {d : Draft} (h : d.Sound first) (steps : List Step) :
    (d.run steps).Sound first := by
  induction steps generalizing d with
  | nil => exact h
  | cons s steps ih => exact ih (h.step s)

/-- No run takes back an offset. -/
theorem offsetOf?_run {d : Draft} {id : Nat} {o : UInt32}
    (h : d.image.code.offsetOf? id = some o) (steps : List Step) :
    (d.run steps).image.code.offsetOf? id = some o := by
  induction steps generalizing d with
  | nil => exact h
  | cons s steps ih => exact ih (offsetOf?_step h s)

/-- An appended routine is handed the end of the code at that time, and keeps that offset. -/
theorem offsetOf?_of_append {first : Nat} {d : Draft} (h : d.Sound first) {before after : List Step}
    {r : Routine} {id : Nat} (hid : (d.run before).image.code.routines.length = id) :
    (d.run (before ++ .append r :: after)).image.code.offsetOf? id =
      some (d.run before).image.code.endOffset := by
  have hnew : ((d.run before).step (.append r)).image.code.offsetOf? id =
      some (d.run before).image.code.endOffset := by
    show ((d.run before).image.code.offsets ++ [_])[id]? = _
    rw [← hid, ← (h.run before).indexed.length, List.getElem?_concat_length]
  rw [run_append]
  exact offsetOf?_run hnew after

/-- A routine that was not there from the start was appended in some step. -/
theorem exists_append {d : Draft} {steps : List Step} {id : Nat}
    (hfirst : d.image.code.routines.length ≤ id) (hid : id < (d.run steps).image.code.routines.length) :
    ∃ before r after, steps = before ++ .append r :: after ∧
      (d.run before).image.code.routines.length = id := by
  induction steps using List.reverseRecOn with
  | nil =>
    rw [run, List.foldl_nil] at hid
    omega
  | append_singleton steps s ih =>
    by_cases hlt : id < (d.run steps).image.code.routines.length
    · obtain ⟨before, r, after, rfl, hlen⟩ := ih hlt
      exact ⟨before, r, after ++ [s], by simp, hlen⟩
    · -- the last step made the code longer, so it appended the routine
      rw [run_append] at hid
      cases s with
      | append r =>
        refine ⟨steps, r, [], rfl, ?_⟩
        have hlen : id < ((d.run steps).image.code.routines ++ [r]).length := hid
        rw [List.length_append, List.length_singleton] at hlen
        omega
      | edit k f =>
        have hlen : id < ((d.run steps).image.code.routines.modify k f).length := hid
        rw [List.length_modify] at hlen
        exact absurd hlen hlt
      | addClass name properties => exact absurd hid hlt
      | record k e =>
        have hlen : id < ((d.run steps).record k e).image.code.routines.length := hid
        obtain heq | ⟨_, _, _, _, -, -, heq⟩ := (d.run steps).record_cases k e
        · rw [heq] at hlen
          exact absurd hlen hlt
        · rw [heq] at hlen
          exact absurd hlen hlt

end Draft

/-- An image to start from: a new file, or one that was decoded. -/
inductive Image.Fresh : Image → Prop where
  | empty (v : Version) : Fresh (.empty v)
  | decoded {options : DecodeOptions} {bytes : List UInt8} {image : Image}
      (h : Image.decode options bytes = .ok image) : Fresh image

theorem Image.Fresh.sound {image : Image} (h : image.Fresh) :
    (Draft.ofImage image).Sound image.code.routines.length := by
  have hindexed : image.code.Indexed ∧ image.code.Ascending := by
    cases h with
    | empty v => exact ⟨⟨rfl, rfl⟩, List.Pairwise.nil⟩
    | decoded h =>
      obtain ⟨-, hwf, -⟩ := decode_eq_ok_iff.1 h
      have hfits := hwf.fits
      rw [hwf.laidOut]
      refine ⟨Code.indexed_laidOut _ _, ?_⟩
      refine (Code.pairwise_startsFrom (fun r hr => Nat.ne_of_gt (hwf.ends r hr).size_pos) ?_).imp
        UInt32.le_of_lt
      rw [Code.toNat_ofNat_of_le (by omega)]
      exact hfits
  exact ⟨hindexed.1, hindexed.2, Nat.le_refl _, fun e he => absurd he List.not_mem_nil,
    fun e he => absurd he List.not_mem_nil⟩

namespace Draft

/-! ## Owners -/

/-- **Owners of temporary offsets.**  After an update, an entry points at the routine for which it
was recorded exactly if the offsets did not stall on that routine when the next one was appended. -/
theorem keeps_owner_iff {image image' : Image} {steps : List Step} (hfresh : image.Fresh)
    (hupdate : Image.updateOffsets ((ofImage image).run steps).image = .ok () image')
    {e : OwnedEntry} (he : e ∈ ((ofImage image).run steps).owned) :
    image'.header.offsetAt? e.place = image'.code.offsetOf? e.id ↔
      ∀ before r after, steps = before ++ .append r :: after →
        ((ofImage image).run before).image.code.routines.length = e.id + 1 →
        ¬((ofImage image).run before).image.code.Stalls := by
  have hsound := hfresh.sound.run steps
  obtain ⟨hmem, hplace⟩ := hsound.owned e he
  obtain ⟨hfirst, hoffset⟩ := hsound.handed _ hmem
  simp only at hfirst hoffset
  -- when the routine after `e.id` is appended, `e.id` is the last one and has its offset
  have hlast : ∀ before r after, steps = before ++ .append r :: after →
      ((ofImage image).run before).image.code.routines.length = e.id + 1 →
      (((ofImage image).run before).image.code.Stalls ↔
        ((ofImage image).run steps).image.code.offsetOf? (e.id + 1) = some e.offset) := by
    intro before r after hsteps hlen
    have hbefore := hfresh.sound.run before
    have hget : ((ofImage image).run before).image.code.offsets.getLast? = some e.offset := by
      rw [List.getLast?_eq_getElem?, hbefore.indexed.length, hlen, Nat.add_sub_cancel]
      have hlt : e.id < ((ofImage image).run before).image.code.offsets.length := by
        rw [hbefore.indexed.length]
        omega
      have hstill := offsetOf?_run (List.getElem?_eq_getElem hlt) (.append r :: after)
      rw [← run_append, ← hsteps, hoffset] at hstill
      rw [List.getElem?_eq_getElem hlt, hstill]
    rw [hbefore.indexed.stalls_iff hget, hsteps, offsetOf?_of_append hfresh.sound hlen,
      Option.some.injEq]
  rw [Image.offsetAt?_eq_offsetOf?_iff hupdate hsound.indexed hplace, hsound.indexed.at?_eq_some_iff]
  constructor
  · rintro ⟨-, hlater⟩ before r after hsteps hlen hstalls
    exact hlater _ (Nat.lt_succ_self _) ((hlast before r after hsteps hlen).1 hstalls)
  · intro hkept
    refine ⟨hoffset, fun later hlt hlater => ?_⟩
    have hnext := hsound.ascending.offsetOf?_succ hoffset hlt hlater
    have hidlt : e.id + 1 < ((ofImage image).run steps).image.code.routines.length := by
      rw [← hsound.indexed.length]
      exact (List.getElem?_eq_some_iff.1 hnext).1
    obtain ⟨before, r, after, hsteps, hlen⟩ := exists_append
      (d := ofImage image) (Nat.le_succ_of_le hfirst) hidlt
    exact hkept before r after hsteps hlen ((hlast before r after hsteps hlen).2 hnext)

/-- Two routines are appended before either is filled, and a function is added for each. -/
def crowdedSteps : List Step :=
  [.append [], .append [],
    .edit 0 fun _ => [.op ⟨.pushTrue, ()⟩, .op .endRoutine], .edit 1 fun _ => [.op .endRoutine],
    .record 0 (.function ⟨[102], by decide⟩ 0), .record 1 (.function ⟨[103], by decide⟩ 0)]

/-- What an update makes of them: both functions point at the second routine. -/
def crowdedUpdate : Image where
  header := { Header.empty .v60 with
    functions := [⟨⟨[102], by decide⟩, 0, 36⟩, ⟨⟨[103], by decide⟩, 0, 36⟩] }
  code :=
    { routines := [[.op ⟨.pushTrue, ()⟩, .op .endRoutine], [.op .endRoutine]]
      offsets := [34, 36]
      index := [(36, 1), (34, 0)]
      base := 34 }
  order := .little

theorem keeps_owner_iff_crowded :
    (Image.empty .v60).Fresh ∧
      Image.updateOffsets ((ofImage (.empty .v60)).run crowdedSteps).image = .ok () crowdedUpdate ∧
      ⟨.function 0, 0, 18⟩ ∈ ((ofImage (.empty .v60)).run crowdedSteps).owned ∧
      (crowdedUpdate.header.offsetAt? (.function 0) = crowdedUpdate.code.offsetOf? 0 ↔
        ∀ before r after, crowdedSteps = before ++ .append r :: after →
          ((ofImage (.empty .v60)).run before).image.code.routines.length = 1 →
          ¬((ofImage (.empty .v60)).run before).image.code.Stalls) := by
  have hfresh : (Image.empty .v60).Fresh := .empty .v60
  have hupdate : Image.updateOffsets ((ofImage (.empty .v60)).run crowdedSteps).image =
      .ok () crowdedUpdate := rfl
  have he : ⟨.function 0, 0, 18⟩ ∈ ((ofImage (.empty .v60)).run crowdedSteps).owned := by decide
  exact ⟨hfresh, hupdate, he, keeps_owner_iff hfresh hupdate he⟩

/-- Not every entry keeps its owner: a routine that is still empty when the next one is appended
loses its entries to that one. -/
theorem not_forall_keeps_owner :
    ¬∀ (image image' : Image) (steps : List Step), image.Fresh →
      Image.updateOffsets ((ofImage image).run steps).image = .ok () image' →
      ∀ e ∈ ((ofImage image).run steps).owned,
        image'.header.offsetAt? e.place = image'.code.offsetOf? e.id := by
  intro h
  have hkept := h (.empty .v60) crowdedUpdate crowdedSteps (.empty .v60) rfl ⟨.function 0, 0, 18⟩
    (by decide)
  exact absurd hkept (by decide)

end Draft

end ScriptImage
