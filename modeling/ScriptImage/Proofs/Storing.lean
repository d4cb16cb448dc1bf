import ScriptImage.Image

/-!
# What encodings write

Every structure of a file has a stored form, a plain byte sequence, and the condition
under which it can be stored.  `Encoding.Writes e p bs` says that an encoding fails
exactly if the condition does not hold, and otherwise writes these bytes:

    (e.failure = none ↔ p) ∧ (p → e.bytes = bs)

The length of a stored form is the size that the structure announces, so the check of
announced sizes never decides anything.  For a header the condition is `Header.Storable`,
for code it is that no instruction is symbolic.
-/

namespace ScriptImage

namespace Encoding

/-- The encoding fails exactly if the condition does not hold, and otherwise writes the bytes. -/
def Writes (e : Encoding) (p : Prop) (bs : List UInt8) : Prop :=
  (e.failure = none ↔ p) ∧ (p → e.bytes = bs)

theorem writes_ofBytes (bs : List UInt8) : (ofBytes bs).Writes True bs :=
  ⟨iff_of_true rfl trivial, fun _ => rfl⟩

theorem writes_fail (e : Error) (bs : List UInt8) : (fail e).Writes False bs :=
  ⟨iff_of_false (Option.some_ne_none e) id, False.elim⟩

theorem writes_count (order : ByteOrder) (width : CountWidth) (what : String) (n : Nat) :
    (count order width what n).Writes (n ≤ width.max) (order.encode width.size n) := by
  unfold count
  by_cases h : width.max < n
  · rw [if_pos h]
    refine ⟨iff_of_false (Option.some_ne_none _) (by omega), fun hle => ?_⟩
    omega
  · rw [if_neg h]
    exact ⟨iff_of_true rfl (by omega), fun _ => rfl⟩

namespace Writes

variable {a b : Encoding} {p q : Prop} {x y : List UInt8}

theorem congr (h : a.Writes p x) (hpq : p ↔ q) : a.Writes q x :=
  ⟨h.1.trans hpq, fun hq => h.2 (hpq.2 hq)⟩

theorem append (ha : a.Writes p x) (hb : b.Writes q y) : (a ++ b).Writes (p ∧ q) (x ++ y) := by
  refine ⟨?_, ?_⟩
  · rw [append_failure_eq_none_iff, ha.1, hb.1]
  · rintro ⟨hp, hq⟩
    rw [append_ok a b (ha.1.2 hp), ha.2 hp, hb.2 hq]

/-- A size that is announced rightly changes nothing. -/
theorem announced (h : a.Writes p x) {size : Nat} (hsize : p → x.length = size) :
    (announced size a).Writes p x := by
  rw [announced_of_length a (fun hok => by rw [h.2 (h.1.1 hok), hsize (h.1.1 hok)])]
  exact h

theorem concat {α : Type} {f : α → Encoding} {ok : α → Prop} {bytes : α → List UInt8}
    (h : ∀ x, (f x).Writes (ok x) (bytes x)) (xs : List α) :
    (Encoding.concat (xs.map f)).Writes (∀ x ∈ xs, ok x) (xs.flatMap bytes) := by
  induction xs with
  | nil => exact (writes_ofBytes []).congr (by simp)
  | cons x xs ih =>
    rw [List.map_cons, concat_cons, List.flatMap_cons]
    exact ((h x).append ih).congr (by simp)

theorem toExcept_eq_ok_iff (h : a.Writes p x) {out : List UInt8} :
    a.toExcept = .ok out ↔ p ∧ out = x := by
  unfold Encoding.toExcept
  cases hf : a.failure with
  | none =>
    have hp : p := h.1.1 hf
    simp only [Except.ok.injEq, h.2 hp, hp, true_and]
    exact eq_comm
  | some e =>
    have hp : ¬p := fun hp => by rw [h.1.2 hp] at hf; cases hf
    simp [hp]

end Writes

end Encoding

/-! ## Tables -/

theorem length_flatMap_stored {α : Type} {bytes : α → List UInt8} {size : α → Nat} {xs : List α}
    (h : ∀ x ∈ xs, (bytes x).length = size x) : (xs.flatMap bytes).length = (xs.map size).sum := by
  rw [List.length_flatMap]
  congr 1
  exact List.map_congr_left h

theorem sum_map_const {α : Type} (xs : List α) (n : Nat) : (xs.map fun _ => n).sum = xs.length * n := by
  rw [List.map_const', List.sum_replicate_nat]

namespace StringPool

def stored (order : ByteOrder) (p : StringPool) : List UInt8 :=
  order.encode 2 p.entries.size ++ p.entries.toList.flatMap fun s => s.stored order

theorem length_stored (order : ByteOrder) (p : StringPool) : (p.stored order).length = p.size := by
  unfold stored size
  rw [List.length_append, order.length_encode,
    length_flatMap_stored fun s _ => s.length_stored order]

theorem writes (order : ByteOrder) (p : StringPool) :
    (p.encode order).Writes True (p.stored order) := by
  have hcount := Encoding.writes_count order .two "strings" p.entries.size
  have hall : p.entries.size ≤ CountWidth.two.max := p.size_le
  exact (hcount.append (Encoding.writes_ofBytes _)).congr (by simp [hall])

end StringPool

namespace FunctionEntry

def stored (order : ByteOrder) (f : FunctionEntry) : List UInt8 :=
  f.name.stored order ++ order.encode 1 f.argCount.toNat ++ order.encode 4 f.offset.toNat

def storedTable (order : ByteOrder) (fs : List FunctionEntry) : List UInt8 :=
  order.encode 2 fs.length ++ fs.flatMap (stored order)

theorem length_stored (order : ByteOrder) (f : FunctionEntry) : (f.stored order).length = f.size := by
  simp only [stored, size, List.length_append, order.length_encode, ByteString.length_stored]

theorem length_storedTable (order : ByteOrder) (fs : List FunctionEntry) :
    (storedTable order fs).length = tableSize fs := by
  unfold storedTable tableSize
  rw [List.length_append, order.length_encode, length_flatMap_stored fun f _ => f.length_stored order]

theorem writes (order : ByteOrder) (f : FunctionEntry) :
    (f.encode order).Writes True (f.stored order) :=
  (Encoding.writes_ofBytes _).announced fun _ => length_stored order f

theorem writes_table (order : ByteOrder) (fs : List FunctionEntry) :
    (encodeTable order fs).Writes (fs.length ≤ maxEntries) (storedTable order fs) := by
  have hcount := Encoding.writes_count order .two "functions" fs.length
  have hmax : CountWidth.two.max = maxEntries := rfl
  exact (hcount.append (Encoding.Writes.concat (writes order) fs)).congr (by simp [hmax])

end FunctionEntry

theorem Method.length_stored (order : ByteOrder) (m : Method) : (m.stored order).length = 6 := by
  simp [Method.stored]

namespace ClassEntry

/-- Whether counts of a width can hold the numbers of properties and methods. -/
def Countable (width : CountWidth) (c : ClassEntry) : Prop :=
  c.properties.length ≤ width.max ∧ c.methods.length ≤ width.max

instance (width : CountWidth) (c : ClassEntry) : Decidable (c.Countable width) :=
  inferInstanceAs (Decidable (_ ∧ _))

def storedMembers (order : ByteOrder) (width : CountWidth) (properties : List UInt16)
    (methods : List Method) : List UInt8 :=
  order.encode width.size properties.length ++ properties.flatMap (fun p => order.encode 2 p.toNat) ++
    order.encode width.size methods.length ++ methods.flatMap fun m => m.stored order

theorem length_storedMembers (order : ByteOrder) (width : CountWidth) (c : ClassEntry) :
    (storedMembers order width c.properties c.methods).length = c.membersSize width := by
  have hproperties : (c.properties.flatMap fun p => order.encode 2 p.toNat).length =
      c.properties.length * 2 := by
    rw [length_flatMap_stored fun p _ => order.length_encode 2 p.toNat]
    exact sum_map_const c.properties 2
  have hmethods : (c.methods.flatMap fun m => m.stored order).length = c.methods.length * 6 := by
    rw [length_flatMap_stored fun m _ => m.length_stored order]
    exact sum_map_const c.methods 6
  simp only [storedMembers, membersSize, List.length_append, order.length_encode, hproperties,
    hmethods]
  omega

theorem writes_members (order : ByteOrder) (width : CountWidth) (c : ClassEntry) :
    (c.encodeMembers order width).Writes (c.Countable width)
      (storedMembers order width c.properties c.methods) := by
  have hproperties := (Encoding.writes_count order width "properties" c.properties.length).append
    (Encoding.writes_ofBytes (c.properties.flatMap fun p => order.encode 2 p.toNat))
  have hmethods := Encoding.writes_count order width "methods" c.methods.length
  have h := (hproperties.append hmethods).append
    (Encoding.writes_ofBytes (c.methods.flatMap fun m => m.stored order))
  exact h.congr (by simp [Countable])

end ClassEntry

namespace ClassTable

/-- Whether the number of classes and the numbers of their members can be stored. -/
def Countable (t : ClassTable) : Prop :=
  t.entries.length ≤ maxEntries ∧ ∀ c ∈ t.entries, c.Countable t.countWidth

instance (t : ClassTable) : Decidable t.Countable :=
  inferInstanceAs (Decidable (_ ∧ ∀ c ∈ t.entries, c.Countable t.countWidth))

def stored (order : ByteOrder) (t : ClassTable) : List UInt8 :=
  order.encode 2 t.entries.length ++
    t.entries.flatMap (fun c =>
      ClassEntry.storedMembers order t.countWidth c.properties c.methods) ++
    t.entries.flatMap fun c => c.name.stored order

theorem length_stored (order : ByteOrder) (t : ClassTable) : (t.stored order).length = t.size := by
  have hsum : (t.entries.map fun c => c.membersSize t.countWidth + c.name.size).sum =
      (t.entries.map (ClassEntry.membersSize t.countWidth)).sum +
        (t.entries.map fun c => c.name.size).sum := by
    induction t.entries with
    | nil => rfl
    | cons c cs ih =>
      simp only [List.map_cons, List.sum_cons, ih]
      omega
  unfold stored size
  rw [List.length_append, List.length_append, order.length_encode,
    length_flatMap_stored fun c _ => c.length_storedMembers order t.countWidth,
    length_flatMap_stored fun c _ => c.name.length_stored order, hsum]
  omega

theorem writes (order : ByteOrder) (t : ClassTable) :
    (t.encode order).Writes t.Countable (t.stored order) := by
  have hcount := Encoding.writes_count order .two "classes" t.entries.length
  have hmembers := Encoding.Writes.concat (ClassEntry.writes_members order t.countWidth) t.entries
  have h := (hcount.append hmembers).append
    (Encoding.writes_ofBytes (t.entries.flatMap fun c => c.name.stored order))
  have hmax : CountWidth.two.max = maxEntries := rfl
  exact h.congr (by simp [Countable, hmax])

end ClassTable

/-! ## Headers -/

namespace Header

/-- What a header must satisfy to be stored: sources and count width are those of the version,
and all numbers of entries fit their counts. -/
structure Storable (h : Header) : Prop where
  sources : h.version.hasSources = h.sources.isSome
  countWidth : h.classes.countWidth = h.version.countWidth
  functions : h.functions.length ≤ maxEntries
  classes : h.classes.Countable

def storedSources (order : ByteOrder) (sources : Option StringPool) : List UInt8 :=
  match sources with
  | some p => p.stored order
  | none => []

def storedTables (order : ByteOrder) (h : Header) : List UInt8 :=
  h.strings.stored order ++ h.globals.stored order ++ FunctionEntry.storedTable order h.functions ++
    h.classes.stored order ++ h.symbols.stored order ++ storedSources order h.sources

def stored (order : ByteOrder) (h : Header) : List UInt8 :=
  preamble order h.version ++ h.storedTables order

theorem length_storedSources (order : ByteOrder) (sources : Option StringPool) :
    (storedSources order sources).length = (sources.map StringPool.size).getD 0 := by
  cases sources with
  | none => rfl
  | some p => exact p.length_stored order

theorem length_stored (order : ByteOrder) (h : Header) : (h.stored order).length = h.size := by
  simp only [stored, storedTables, preamble, size, List.length_append, ByteOrder.length_encode,
    StringPool.length_stored, FunctionEntry.length_storedTable, ClassTable.length_stored,
    length_storedSources]
  omega

theorem writes_pool (order : ByteOrder) (p : StringPool) :
    (encodePool order p).Writes True (p.stored order) :=
  (p.writes order).announced fun _ => p.length_stored order

theorem writes_tables (order : ByteOrder) (h : Header) :
    (h.encodeTables order).Writes (h.functions.length ≤ maxEntries ∧ h.classes.Countable)
      (h.storedTables order) := by
  have hfunctions := (FunctionEntry.writes_table order h.functions).announced
    fun _ => FunctionEntry.length_storedTable order h.functions
  have hclasses := (h.classes.writes order).announced fun _ => h.classes.length_stored order
  have hsources : (match h.sources with
      | some p => encodePool order p
      | none => .empty).Writes True (storedSources order h.sources) := by
    cases h.sources with
    | none => exact Encoding.writes_ofBytes []
    | some p => exact writes_pool order p
  have hall := (((((writes_pool order h.strings).append (writes_pool order h.globals)).append
    hfunctions).append hclasses).append (writes_pool order h.symbols)).append hsources
  exact hall.congr (by simp)

theorem writes (order : ByteOrder) (h : Header) :
    (h.encode order).Writes h.Storable (h.stored order) := by
  unfold encode
  by_cases hs : h.version.hasSources = h.sources.isSome
  · by_cases hw : h.classes.countWidth = h.version.countWidth
    · rw [if_neg (not_not_intro hs), if_neg (not_not_intro hw)]
      have hall := (Encoding.writes_ofBytes (preamble order h.version)).append (writes_tables order h)
      refine hall.congr ⟨?_, ?_⟩
      · rintro ⟨-, hf, hc⟩
        exact ⟨hs, hw, hf, hc⟩
      · rintro ⟨-, -, hf, hc⟩
        exact ⟨trivial, hf, hc⟩
    · rw [if_neg (not_not_intro hs), if_pos hw]
      exact (Encoding.writes_fail _ _).congr (iff_of_false id fun hst => hw hst.countWidth)
  · rw [if_pos hs]
    exact (Encoding.writes_fail _ _).congr (iff_of_false id fun hst => hs hst.sources)

end Header

/-! ## Code -/

theorem Opcode.width?_isSome_of_mem_signature (o : Opcode) :
    ∀ f ∈ o.signature, f.type.width?.isSome = true := by
  cases o <;> decide

/-- Values of a type of fixed width take that width. -/
theorem CellType.sizeOf_of_width? {t : CellType} {n : Nat} (h : t.width? = some n)
    (v : t.Carrier) : t.sizeOf v = n := by
  cases t with
  | string form => cases h
  | _ =>
    simp only [CellType.width?, Option.some.injEq] at h
    simp only [CellType.sizeOf, h]

theorem Operands.length_stored (order : ByteOrder) {fs : List Field}
    (hfs : ∀ f ∈ fs, f.type.width?.isSome = true) (xs : Operands fs) :
    (xs.stored order).length = (fs.map Opcode.fieldWidth).sum := by
  induction fs with
  | nil => rfl
  | cons f fs ih =>
    obtain ⟨v, rest⟩ := xs
    obtain ⟨n, hn⟩ := Option.isSome_iff_exists.1 (hfs f List.mem_cons_self)
    have hv : (f.type.stored order v).length = Opcode.fieldWidth f := by
      rw [CellType.length_stored, CellType.sizeOf_of_width? hn, Opcode.fieldWidth, hn]
      rfl
    have hrest := ih (fun g hg => hfs g (List.mem_cons_of_mem _ hg)) rest
    rw [Operands.stored, List.length_append, hv, hrest, List.map_cons, List.sum_cons]

theorem Op.length_stored (order : ByteOrder) (o : Op) : (o.stored order).length = o.size := by
  have h := Operands.length_stored order o.code.width?_isSome_of_mem_signature o.operands
  rw [Op.stored, List.length_cons, h, Op.size, Opcode.size]
  omega

namespace Instr

def stored (order : ByteOrder) : Instr → List UInt8
  | op o => o.stored order
  | symbolic _ => []

theorem writes (order : ByteOrder) (i : Instr) :
    (i.encode order).Writes (i.isSymbolic = false) (i.stored order) := by
  cases i with
  | op o =>
    have h := (Encoding.writes_ofBytes (o.stored order)).announced fun _ => o.length_stored order
    exact h.congr (iff_of_true trivial rfl)
  | symbolic s => exact (Encoding.writes_fail _ _).congr (by simp [isSymbolic])

theorem length_stored (order : ByteOrder) {i : Instr} (h : i.isSymbolic = false) :
    (i.stored order).length = i.size := by
  cases i with
  | op o => exact o.length_stored order
  | symbolic s => cases h

end Instr

namespace Routine

def stored (order : ByteOrder) (r : Routine) : List UInt8 :=
  r.flatMap (Instr.stored order)

/-- Whether no instruction is symbolic. -/
def Concrete (r : Routine) : Prop :=
  ∀ i ∈ r, i.isSymbolic = false

theorem isConcrete_iff {r : Routine} : r.isConcrete = true ↔ r.Concrete := by
  simp [isConcrete, Concrete]

instance (r : Routine) : Decidable r.Concrete :=
  decidable_of_iff (r.isConcrete = true) isConcrete_iff

theorem writes (order : ByteOrder) (r : Routine) :
    (r.encode order).Writes r.Concrete (r.stored order) :=
  Encoding.Writes.concat (Instr.writes order) r

theorem length_stored (order : ByteOrder) {r : Routine} (h : r.Concrete) :
    (r.stored order).length = r.size :=
  length_flatMap_stored fun i hi => i.length_stored order (h i hi)

end Routine

namespace Code

def stored (order : ByteOrder) (c : Code) : List UInt8 :=
  c.routines.flatMap (Routine.stored order)

/-- Whether no instruction is symbolic. -/
def Concrete (c : Code) : Prop :=
  ∀ r ∈ c.routines, r.Concrete

instance (c : Code) : Decidable c.Concrete :=
  inferInstanceAs (Decidable (∀ r ∈ c.routines, r.Concrete))

theorem writes (order : ByteOrder) (c : Code) :
    (c.encode order).Writes c.Concrete (c.stored order) :=
  Encoding.Writes.concat
    (fun r => (r.writes order).announced fun h => r.length_stored order h) c.routines

theorem length_stored (order : ByteOrder) {c : Code} (h : c.Concrete) :
    (c.stored order).length = c.size :=
  length_flatMap_stored fun r hr => r.length_stored order (h r hr)

end Code

/-- A file can be encoded exactly if its offsets are current, its header is storable and its code
is concrete. -/
theorem Image.encode_eq_ok_iff {image : Image} {bytes : List UInt8} :
    image.encode = .ok bytes ↔
      image.stale? = none ∧ image.header.Storable ∧ image.code.Concrete ∧
        bytes = image.header.stored image.order ++ image.code.stored image.order := by
  have hheader := (image.header.writes image.order).announced
    fun _ => image.header.length_stored image.order
  have hcode := (image.code.writes image.order).announced
    fun h => image.code.length_stored image.order h
  unfold Image.encode
  cases hs : image.stale? with
  | some e => simp
  | none =>
    rw [(hheader.append hcode).toExcept_eq_ok_iff]
    simp [and_assoc]

end ScriptImage
