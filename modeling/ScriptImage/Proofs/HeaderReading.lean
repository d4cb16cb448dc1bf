import ScriptImage.Proofs.Reading
import ScriptImage.Proofs.Storing

/-!
# Reading headers

The readers of the header tables accept exactly what the tables store:

    StringPool.read order form     reads pools of that form
    FunctionEntry.readTable order  reads tables with at most 65535 functions
    ClassTable.read order width    reads countable tables of that count width
    Header.read order              reads storable headers whose pools have their declared forms

The class table keeps the members of all classes before the names of all classes; reading
it pairs the two lists up again.
-/

namespace ScriptImage

namespace Reader

variable {α : Type}

/-- A count of two bytes holds the numbers of entries that a table may have. -/
theorem bind_uint16_eq_ok_iff (order : ByteOrder) {f : Nat → Reader α} {c c' : Cursor} {a : α} :
    (uint16 order >>= fun k => f k.toNat) c = .ok a c' ↔
      ∃ n c₁, n ≤ maxEntries ∧ c.Passes (order.encode 2 n) c₁ ∧ f n c₁ = .ok a c' := by
  rw [Run.bind_eq_ok_iff]
  constructor
  · rintro ⟨k, c₁, hk, hf⟩
    have hlt := k.toNat_lt
    exact ⟨k.toNat, c₁, by unfold maxEntries; omega, ((reads_uint16 order).eq_ok_iff.1 hk).2, hf⟩
  · rintro ⟨n, c₁, hn, hp, hf⟩
    have htoNat : (UInt16.ofNat n).toNat = n := by
      rw [UInt16.toNat_ofNat']
      exact Nat.mod_eq_of_lt (by unfold maxEntries at hn; omega)
    refine ⟨UInt16.ofNat n, c₁, (reads_uint16 order).eq_ok_iff.2 ⟨trivial, ?_⟩, ?_⟩
    · rw [htoNat]
      exact hp
    · rw [htoNat]
      exact hf

theorem bind_count_eq_ok_iff (order : ByteOrder) (width : CountWidth) {f : Nat → Reader α}
    {c c' : Cursor} {a : α} :
    (width.read order >>= f) c = .ok a c' ↔
      ∃ n c₁, n ≤ width.max ∧ c.Passes (order.encode width.size n) c₁ ∧ f n c₁ = .ok a c' := by
  have hpos : 0 < 256 ^ width.size := Nat.pow_pos (by decide)
  have hmax : ∀ n, n < 256 ^ width.size ↔ n ≤ width.max := by
    intro n
    unfold CountWidth.max
    omega
  rw [Run.bind_eq_ok_iff]
  constructor
  · rintro ⟨n, c₁, hn, hf⟩
    obtain ⟨hlt, hp⟩ := (reads_word order _).eq_ok_iff.1 hn
    exact ⟨n, c₁, (hmax n).1 hlt, hp, hf⟩
  · rintro ⟨n, c₁, hn, hp, hf⟩
    exact ⟨n, c₁, (reads_word order _).eq_ok_iff.2 ⟨(hmax n).2 hn, hp⟩, hf⟩

end Reader

/-! ## Pools and functions -/

theorem StringPool.ofList_eq_ok_iff {form : StringForm} {entries : List (ByteString form)}
    {p : StringPool} :
    StringPool.ofList form entries = .ok p ↔
      ∃ h : entries.toArray.size ≤ maxEntries, p = ⟨form, entries.toArray, h⟩ := by
  unfold StringPool.ofList
  by_cases h : entries.length ≤ maxEntries
  · rw [dif_pos h, Except.ok.injEq]
    constructor
    · rintro rfl
      exact ⟨by simpa using h, rfl⟩
    · rintro ⟨_, rfl⟩
      rfl
  · rw [dif_neg h]
    constructor
    · intro hp
      cases hp
    · rintro ⟨h', -⟩
      exact absurd (by simpa using h') h

theorem StringPool.reads (order : ByteOrder) (form : StringForm) :
    Reader.Reads (StringPool.read order form) (fun p => p.form = form) (StringPool.stored order) := by
  intro c p c'
  have hmany := fun n => (ByteString.reads order form).many n
  refine (Reader.bind_uint16_eq_ok_iff order
    (f := fun n => Reader.many (ByteString.read order form) n >>= fun entries =>
      Reader.lift (StringPool.ofList form entries))).trans ?_
  constructor
  · rintro ⟨n, c₁, -, hp₁, hk⟩
    obtain ⟨entries, c₂, hentries, hlast⟩ := Run.bind_eq_ok_iff.1 hk
    obtain ⟨⟨hlen, -⟩, hp₂⟩ := (hmany n).eq_ok_iff.1 hentries
    obtain ⟨hpool, rfl⟩ := Reader.lift_eq_ok_iff.1 hlast
    obtain ⟨hle, rfl⟩ := StringPool.ofList_eq_ok_iff.1 hpool
    refine ⟨rfl, Cursor.passes_append.2 ⟨c₁, ?_, ?_⟩⟩
    · rw [List.size_toArray, hlen]
      exact hp₁
    · exact hp₂
  · rintro ⟨rfl, hp⟩
    obtain ⟨form, entries, hle⟩ := p
    obtain ⟨c₁, hp₁, hp₂⟩ := Cursor.passes_append.1 hp
    refine ⟨entries.size, c₁, hle, hp₁, Run.bind_eq_ok_iff.2 ⟨entries.toList, c', ?_, ?_⟩⟩
    · exact (hmany _).eq_ok_iff.2 ⟨⟨Array.length_toList, fun _ _ => trivial⟩, hp₂⟩
    · exact Reader.lift_eq_ok_iff.2 ⟨StringPool.ofList_eq_ok_iff.2 ⟨by simpa using hle, by simp⟩, rfl⟩

theorem FunctionEntry.reads (order : ByteOrder) :
    Reader.Reads (FunctionEntry.read order) (fun _ => True) (FunctionEntry.stored order) := by
  intro c f c'
  obtain ⟨name, argCount, offset⟩ := f
  simp only [FunctionEntry.read, Run.bind_eq_ok_iff, Run.pure_eq_ok_iff, true_and,
    (ByteString.reads order _).eq_ok_iff, Reader.reads_byte.eq_ok_iff,
    (Reader.reads_uint32 order).eq_ok_iff, FunctionEntry.stored, Reader.encode_one,
    UInt8.ofNat_toNat, Cursor.passes_append, FunctionEntry.mk.injEq]
  constructor
  · rintro ⟨name, c₁, hp₁, argCount, c₂, hp₂, offset, c₃, hp₃, ⟨rfl, rfl, rfl⟩, rfl⟩
    exact ⟨c₂, ⟨c₁, hp₁, hp₂⟩, hp₃⟩
  · rintro ⟨c₂, ⟨c₁, hp₁, hp₂⟩, hp₃⟩
    exact ⟨name, c₁, hp₁, argCount, c₂, hp₂, offset, c', hp₃, ⟨rfl, rfl, rfl⟩, rfl⟩

theorem FunctionEntry.reads_table (order : ByteOrder) :
    Reader.Reads (FunctionEntry.readTable order) (fun fs => fs.length ≤ maxEntries)
      (FunctionEntry.storedTable order) := by
  intro c fs c'
  have hmany := fun n => (FunctionEntry.reads order).nested.many n
  refine (Reader.bind_uint16_eq_ok_iff order
    (f := fun n => Reader.many (Reader.nested (FunctionEntry.read order)) n)).trans ?_
  constructor
  · rintro ⟨n, c₁, hn, hp₁, hk⟩
    obtain ⟨⟨rfl, -⟩, hp₂⟩ := (hmany n).eq_ok_iff.1 hk
    exact ⟨hn, Cursor.passes_append.2 ⟨c₁, hp₁, hp₂⟩⟩
  · rintro ⟨hle, hp⟩
    obtain ⟨c₁, hp₁, hp₂⟩ := Cursor.passes_append.1 hp
    exact ⟨fs.length, c₁, hle, hp₁, (hmany _).eq_ok_iff.2 ⟨⟨rfl, fun _ _ => trivial⟩, hp₂⟩⟩

/-! ## Classes -/

theorem Method.reads (order : ByteOrder) :
    Reader.Reads (Method.read order) (fun _ => True) (Method.stored order) := by
  intro c m c'
  obtain ⟨symbol, offset⟩ := m
  simp only [Method.read, Run.bind_eq_ok_iff, Run.pure_eq_ok_iff, true_and,
    (Reader.reads_uint16 order).eq_ok_iff, (Reader.reads_uint32 order).eq_ok_iff, Method.stored,
    Cursor.passes_append, Method.mk.injEq]
  constructor
  · rintro ⟨symbol, c₁, hp₁, offset, c₂, hp₂, ⟨rfl, rfl⟩, rfl⟩
    exact ⟨c₁, hp₁, hp₂⟩
  · rintro ⟨c₁, hp₁, hp₂⟩
    exact ⟨symbol, c₁, hp₁, offset, c', hp₂, ⟨rfl, rfl⟩, rfl⟩

theorem ClassEntry.reads_members (order : ByteOrder) (width : CountWidth) :
    Reader.Reads (ClassEntry.readMembers order width)
      (fun m => m.1.length ≤ width.max ∧ m.2.length ≤ width.max)
      (fun m => ClassEntry.storedMembers order width m.1 m.2) := by
  intro c m c'
  obtain ⟨properties, methods⟩ := m
  have hproperties := fun n => (Reader.reads_uint16 order).many n
  have hmethods := fun n => (Method.reads order).many n
  simp only [ClassEntry.readMembers, ClassEntry.storedMembers, Cursor.passes_append]
  rw [Reader.bind_count_eq_ok_iff]
  constructor
  · rintro ⟨n, c₁, hn, hp₁, hk⟩
    obtain ⟨ps, c₂, hps, hk₂⟩ := Run.bind_eq_ok_iff.1 hk
    obtain ⟨⟨rfl, -⟩, hp₂⟩ := (hproperties n).eq_ok_iff.1 hps
    obtain ⟨k, c₃, hk₃, hp₃, hk₄⟩ := (Reader.bind_count_eq_ok_iff order width).1 hk₂
    obtain ⟨ms, c₄, hms, hlast⟩ := Run.bind_eq_ok_iff.1 hk₄
    obtain ⟨⟨rfl, -⟩, hp₄⟩ := (hmethods k).eq_ok_iff.1 hms
    obtain ⟨hpair, rfl⟩ := Run.pure_eq_ok_iff.1 hlast
    obtain ⟨rfl, rfl⟩ := Prod.mk.inj hpair
    exact ⟨⟨hn, hk₃⟩, c₃, ⟨c₂, ⟨c₁, hp₁, hp₂⟩, hp₃⟩, hp₄⟩
  · rintro ⟨⟨hn, hk⟩, c₃, ⟨c₂, ⟨c₁, hp₁, hp₂⟩, hp₃⟩, hp₄⟩
    refine ⟨properties.length, c₁, hn, hp₁, Run.bind_eq_ok_iff.2 ⟨properties, c₂, ?_, ?_⟩⟩
    · exact (hproperties _).eq_ok_iff.2 ⟨⟨rfl, fun _ _ => trivial⟩, hp₂⟩
    · refine (Reader.bind_count_eq_ok_iff order width).2 ⟨methods.length, c₃, hk, hp₃, ?_⟩
      refine Run.bind_eq_ok_iff.2 ⟨methods, c', ?_, Run.pure_eq_ok_iff.2 ⟨rfl, rfl⟩⟩
      exact (hmethods _).eq_ok_iff.2 ⟨⟨rfl, fun _ _ => trivial⟩, hp₄⟩

/-- The names are read in the order of the members and paired up with them. -/
theorem ClassTable.reads_names (order : ByteOrder) (members : List (List UInt16 × List Method)) :
    Reader.Reads (ClassTable.readNames order members)
      (fun cs => cs.map (fun e => (e.properties, e.methods)) = members)
      (fun cs => cs.flatMap fun e => e.name.stored order) := by
  induction members with
  | nil =>
    intro c cs c'
    rw [ClassTable.readNames, Run.pure_eq_ok_iff]
    constructor
    · rintro ⟨rfl, rfl⟩
      exact ⟨rfl, Cursor.passes_nil.2 rfl⟩
    · rintro ⟨hmap, hp⟩
      obtain rfl := List.map_eq_nil_iff.1 hmap
      exact ⟨rfl, Cursor.passes_nil.1 hp⟩
  | cons m ms ih =>
    intro c cs c'
    obtain ⟨properties, methods⟩ := m
    rw [ClassTable.readNames, Run.bind_eq_ok_iff]
    constructor
    · rintro ⟨name, c₁, hname, hk⟩
      obtain ⟨rest, c₂, hrest, hlast⟩ := Run.bind_eq_ok_iff.1 hk
      obtain ⟨hmap, hp₂⟩ := ih.eq_ok_iff.1 hrest
      obtain ⟨rfl, rfl⟩ := Run.pure_eq_ok_iff.1 hlast
      simp only [List.map_cons, hmap, List.flatMap_cons, true_and]
      exact Cursor.passes_append.2 ⟨c₁, ((ByteString.reads order _).eq_ok_iff.1 hname).2, hp₂⟩
    · rintro ⟨hmap, hp⟩
      cases cs with
      | nil => cases hmap
      | cons e rest =>
        obtain ⟨name, ps, fs⟩ := e
        simp only [List.map_cons, List.cons.injEq, Prod.mk.injEq] at hmap
        obtain ⟨⟨rfl, rfl⟩, hmap⟩ := hmap
        simp only [List.flatMap_cons] at hp
        obtain ⟨c₁, hp₁, hp₂⟩ := Cursor.passes_append.1 hp
        refine ⟨name, c₁, (ByteString.reads order _).eq_ok_iff.2 ⟨trivial, hp₁⟩, ?_⟩
        refine Run.bind_eq_ok_iff.2 ⟨rest, c', ih.eq_ok_iff.2 ⟨hmap, hp₂⟩, ?_⟩
        exact Run.pure_eq_ok_iff.2 ⟨rfl, rfl⟩

theorem ClassTable.reads (order : ByteOrder) (width : CountWidth) :
    Reader.Reads (ClassTable.read order width)
      (fun t => t.countWidth = width ∧ t.Countable) (ClassTable.stored order) := by
  intro c t c'
  obtain ⟨countWidth, entries⟩ := t
  have hmany := fun n => (ClassEntry.reads_members order width).many n
  have hmembers : (entries.map fun e => (e.properties, e.methods)).flatMap
      (fun m => ClassEntry.storedMembers order width m.1 m.2) =
      entries.flatMap fun e => ClassEntry.storedMembers order width e.properties e.methods := by
    rw [List.flatMap_map]
  refine (Reader.bind_uint16_eq_ok_iff order
    (f := fun n => Reader.many (ClassEntry.readMembers order width) n >>= fun members =>
      ClassTable.readNames order members >>= fun entries =>
        pure (ClassTable.mk width entries))).trans ?_
  simp only [ClassTable.stored, Cursor.passes_append]
  constructor
  · rintro ⟨n, c₁, hn, hp₁, hk⟩
    obtain ⟨members, c₂, hms, hk₂⟩ := Run.bind_eq_ok_iff.1 hk
    obtain ⟨⟨hlen, hvalid⟩, hp₂⟩ := (hmany n).eq_ok_iff.1 hms
    obtain ⟨es, c₃, hnames, hlast⟩ := Run.bind_eq_ok_iff.1 hk₂
    obtain ⟨hmap, hp₃⟩ := (ClassTable.reads_names order members).eq_ok_iff.1 hnames
    obtain ⟨htable, rfl⟩ := Run.pure_eq_ok_iff.1 hlast
    obtain ⟨rfl, rfl⟩ := ClassTable.mk.inj htable
    subst hmap
    rw [List.length_map] at hlen
    subst hlen
    rw [hmembers] at hp₂
    refine ⟨⟨rfl, hn, fun e he => ?_⟩, c₂, ⟨c₁, hp₁, hp₂⟩, hp₃⟩
    exact hvalid _ (List.mem_map.2 ⟨e, he, rfl⟩)
  · rintro ⟨⟨rfl, hn, hcount⟩, c₂, ⟨c₁, hp₁, hp₂⟩, hp₃⟩
    refine ⟨entries.length, c₁, hn, hp₁, Run.bind_eq_ok_iff.2
      ⟨entries.map fun e => (e.properties, e.methods), c₂, ?_, ?_⟩⟩
    · refine (hmany _).eq_ok_iff.2 ⟨⟨List.length_map _, fun m hm => ?_⟩, ?_⟩
      · obtain ⟨e, he, rfl⟩ := List.mem_map.1 hm
        exact hcount e he
      · rw [hmembers]
        exact hp₂
    · refine Run.bind_eq_ok_iff.2 ⟨entries, c', ?_, Run.pure_eq_ok_iff.2 ⟨rfl, rfl⟩⟩
      exact (ClassTable.reads_names order _).eq_ok_iff.2 ⟨rfl, hp₃⟩

/-! ## Headers -/

/-- The pools of a header have the forms that their tables are stored in. -/
structure Header.DeclaredForms (h : Header) : Prop where
  strings : h.strings.form = .p16z
  globals : h.globals.form = .p8z
  symbols : h.symbols.form = .p8z
  sources : ∀ p, h.sources = some p → p.form = .p8z

namespace Header

theorem versionOf_eq_ok_iff {major minor : UInt16} {v : Version} :
    versionOf major minor = .ok v ↔ v.pair = (major, minor) := by
  have hpair : ∀ w, Version.ofPair? major minor = some w ↔ w.pair = (major, minor) := by
    intro w
    unfold Version.ofPair?
    constructor
    · intro hw
      simpa using List.find?_some hw
    · intro hw
      cases w <;> cases hw <;> rfl
  rw [← hpair, versionOf]
  cases Version.ofPair? major minor <;> simp

theorem reads_sources (order : ByteOrder) (v : Version) :
    Reader.Reads (readSources order v)
      (fun sources => v.hasSources = sources.isSome ∧ ∀ p, sources = some p → p.form = .p8z)
      (storedSources order) := by
  intro c sources c'
  unfold readSources
  by_cases hv : v.hasSources = true
  · rw [if_pos hv, Run.bind_eq_ok_iff]
    constructor
    · rintro ⟨p, c₁, hp, hlast⟩
      obtain ⟨hform, hpass⟩ := (StringPool.reads order _).eq_ok_iff.1 hp
      obtain ⟨rfl, rfl⟩ := Run.pure_eq_ok_iff.1 hlast
      refine ⟨⟨hv, fun q hq => ?_⟩, hpass⟩
      obtain rfl := Option.some.inj hq
      exact hform
    · rintro ⟨⟨hs, hform⟩, hpass⟩
      obtain ⟨p, rfl⟩ := Option.isSome_iff_exists.1 (hs.symm.trans hv)
      refine ⟨p, c', (StringPool.reads order _).eq_ok_iff.2 ⟨hform p rfl, hpass⟩, ?_⟩
      exact Run.pure_eq_ok_iff.2 ⟨rfl, rfl⟩
  · rw [if_neg hv, Run.pure_eq_ok_iff]
    constructor
    · rintro ⟨rfl, rfl⟩
      refine ⟨⟨by simpa using hv, fun p hp => ?_⟩, Cursor.passes_nil.2 rfl⟩
      cases hp
    · rintro ⟨⟨hs, -⟩, hpass⟩
      cases sources with
      | none => exact ⟨rfl, Cursor.passes_nil.1 hpass⟩
      | some p => exact absurd hs hv

/-- **Headers.**  Exactly the storable headers with declared forms are read. -/
theorem reads (order : ByteOrder) :
    Reader.Reads (Header.read order) (fun h => h.Storable ∧ h.DeclaredForms) (Header.stored order) := by
  intro c h c'
  obtain ⟨version, strings, globals, functions, classes, symbols, sources⟩ := h
  have hfunctions := (FunctionEntry.reads_table order).nested
  simp only [Header.read, Run.bind_eq_ok_iff, Run.guard_eq_ok_iff, Reader.lift_eq_ok_iff,
    Run.pure_eq_ok_iff, (Reader.reads_uint32 _).eq_ok_iff, (Reader.reads_uint16 _).eq_ok_iff,
    (StringPool.reads order _).eq_ok_iff, hfunctions.eq_ok_iff, (ClassTable.reads order _).eq_ok_iff,
    (reads_sources order _).eq_ok_iff, versionOf_eq_ok_iff, true_and, stored, storedTables, preamble,
    Cursor.passes_append]
  constructor
  · rintro ⟨found, c₁, hp₁, hmagic, major, c₂, hp₂, minor, _, hp₃, v, c₃, ⟨hv, rfl⟩, s, c₄,
      ⟨hs, hp₄⟩, g, c₅, ⟨hg, hp₅⟩, fs, c₆, ⟨hfs, hp₆⟩, cs, c₇, ⟨⟨hwidth, hcs⟩, hp₇⟩, ss, c₈,
      ⟨hss, hp₈⟩, os, c₉, ⟨⟨hhas, hos⟩, hp₉⟩, heq, rfl⟩
    obtain ⟨rfl, rfl, rfl, rfl, rfl, rfl, rfl⟩ := Header.mk.inj heq
    obtain rfl : found = magic := Decidable.not_not.1 hmagic
    refine ⟨⟨⟨hhas, hwidth, hfs, hcs⟩, ⟨hs, hg, hss, hos⟩⟩, c₃, ⟨c₂, ⟨c₁, hp₁, ?_⟩, ?_⟩,
      c₈, ⟨c₇, ⟨c₆, ⟨c₅, ⟨c₄, hp₄, hp₅⟩, hp₆⟩, hp₇⟩, hp₈⟩, hp₉⟩
    · rw [hv]
      exact hp₂
    · rw [hv]
      exact hp₃
  · rintro ⟨⟨⟨hhas, hwidth, hfs, hcs⟩, ⟨hs, hg, hss, hos⟩⟩, c₃, ⟨c₂, ⟨c₁, hp₁, hp₂⟩, hp₃⟩,
      c₈, ⟨c₇, ⟨c₆, ⟨c₅, ⟨c₄, hp₄, hp₅⟩, hp₆⟩, hp₇⟩, hp₈⟩, hp₉⟩
    exact ⟨magic, c₁, hp₁, not_not_intro rfl, _, c₂, hp₂, _, c₃, hp₃, version, c₃, ⟨rfl, rfl⟩,
      strings, c₄, ⟨hs, hp₄⟩, globals, c₅, ⟨hg, hp₅⟩, functions, c₆, ⟨hfs, hp₆⟩, classes, c₇,
      ⟨⟨hwidth, hcs⟩, hp₇⟩, symbols, c₈, ⟨hss, hp₈⟩, sources, c', ⟨⟨hhas, hos⟩, hp₉⟩, rfl, rfl⟩

end Header

end ScriptImage
