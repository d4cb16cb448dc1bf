import ScriptImage.Proofs.HeaderReading

/-!
# Input that ends too early

A reader works from the front: it decides on what it has passed and asks for more when it needs
more.  So a successful run says something about other input too.  `Reader.Streams r` puts it
this way, for the bytes `bs` that the run has passed:

* on input that begins with `bs`, the reader gives the same value again,
* on input that ends within `bs`, it fails because bytes are missing, and not in another way.

The second point is the one that counts: a check of content never comes before the bytes it is
about, and bytes that come later do not matter for it.  Both points carry over from parts to
compositions, so they hold of the readers of instructions and headers.
-/

namespace ScriptImage

namespace Reader

variable {α β : Type} {r : Reader α}

/-- The run fails because a position is out of bounds. -/
def FallsShort (r : Reader α) (c : Cursor) : Prop :=
  ∃ e c', r c = .error e c' ∧ e.kind = .range

/-- What one successful run tells of other input. -/
def Streams (r : Reader α) : Prop :=
  ∀ c a c', r c = .ok a c' → ∃ bs, c.Passes bs c' ∧
    (∀ p rest, r ⟨p, bs ++ rest⟩ = .ok a ⟨p + bs.length, rest⟩) ∧
    ∀ p k, k < bs.length → FallsShort r ⟨p, bs.take k⟩

/-! ## Compositions -/

/-- A reader that passes no bytes cannot end within them. -/
theorem streams_pure (a : α) : Streams (pure a : Reader α) := by
  intro c b c' h
  obtain ⟨rfl, rfl⟩ := Run.pure_eq_ok_iff.1 h
  exact ⟨[], Cursor.passes_nil.2 rfl, fun _ _ => rfl, fun _ k hk => absurd hk (Nat.not_lt_zero k)⟩

theorem streams_throw (e : Error) : Streams (throw e : Reader α) := by
  intro c a c' h
  exact absurd h Run.throw_ne_ok

theorem streams_lift (x : Except Error α) : Streams (lift x) := by
  cases x with
  | ok a => exact streams_pure a
  | error e => exact streams_throw e

theorem FallsShort.bind {c : Cursor} (h : FallsShort r c) (f : α → Reader β) :
    FallsShort (r >>= f) c := by
  obtain ⟨e, c', he, hkind⟩ := h
  exact ⟨e, c', Run.bind_of_error he, hkind⟩

theorem Streams.bind {f : α → Reader β} (hr : Streams r) (hf : ∀ a, Streams (f a)) :
    Streams (r >>= f) := by
  intro c b c' h
  obtain ⟨a, c₁, hra, hfb⟩ := Run.bind_eq_ok_iff.1 h
  obtain ⟨bs, hpass, hagain, hshort⟩ := hr c a c₁ hra
  obtain ⟨bs', hpass', hagain', hshort'⟩ := hf a c₁ b c' hfb
  refine ⟨bs ++ bs', Cursor.passes_append.2 ⟨c₁, hpass, hpass'⟩, fun p rest => ?_, fun p k hk => ?_⟩
  · rw [List.append_assoc, Run.bind_of_ok (hagain p (bs' ++ rest)), hagain', List.length_append,
      Nat.add_assoc]
  · rw [List.length_append] at hk
    by_cases hlt : k < bs.length
    · rw [List.take_append_of_le_length (Nat.le_of_lt hlt)]
      exact (hshort p k hlt).bind f
    · -- the input ends within what the second reader passes
      rw [List.take_append, List.take_of_length_le (Nat.le_of_not_lt hlt)]
      obtain ⟨e, c'', he, hkind⟩ := hshort' (p + bs.length) (k - bs.length) (by omega)
      exact ⟨e, c'', (Run.bind_of_ok (hagain p _)).trans he, hkind⟩

theorem Streams.guard {p : Prop} [Decidable p] {e : Error} {k : PUnit → Reader α}
    (hk : Streams (k ⟨⟩)) : Streams (if p then throw e >>= k else k ⟨⟩) := by
  by_cases hp : p
  · intro c a c' h
    exact absurd hp (Run.guard_eq_ok_iff.1 h).1
  · rw [if_neg hp]
    exact hk

theorem Streams.nested (h : Streams r) : Streams (Reader.nested r) := by
  have hok : ∀ {p bs a c₁}, r ⟨0, bs⟩ = .ok a c₁ →
      Reader.nested r ⟨p, bs⟩ = .ok a ⟨p + c₁.offset, c₁.rest⟩ := by
    intro p bs a c₁ hrun
    simp only [Reader.nested, hrun]
  have herror : ∀ {p bs e c₁}, r ⟨0, bs⟩ = .error e c₁ → Reader.nested r ⟨p, bs⟩ = .error e ⟨p, bs⟩ := by
    intro p bs e c₁ hrun
    simp only [Reader.nested, hrun]
  rintro ⟨p, bytes⟩ a c' hn
  cases hrun : r ⟨0, bytes⟩ with
  | error e c₁ =>
    rw [herror hrun] at hn
    cases hn
  | ok b c₁ =>
    rw [hok hrun] at hn
    cases hn
    obtain ⟨bs, ⟨hrest, hoffset⟩, hagain, hshort⟩ := h _ a c₁ hrun
    refine ⟨bs, ⟨hrest, ?_⟩, fun q rest => ?_, fun q k hk => ?_⟩
    · show p + c₁.offset = p + bs.length
      rw [hoffset, Nat.zero_add]
    · rw [hok (hagain 0 rest), Nat.zero_add]
    · obtain ⟨e, c₂, he, hkind⟩ := hshort 0 k hk
      exact ⟨e, ⟨q, bs.take k⟩, herror he, hkind⟩

theorem Streams.many (h : Streams r) (n : Nat) : Streams (Reader.many r n) := by
  induction n with
  | zero => exact streams_pure []
  | succ n ih => exact h.bind fun a => ih.bind fun as => streams_pure (a :: as)

/-! ## Words -/

theorem streams_bytes (n : Nat) : Streams (bytes n) := by
  intro c chunk c' h
  obtain ⟨rfl, hrest, hoffset⟩ := bytes_eq_ok_iff.1 h
  refine ⟨chunk, ⟨hrest, hoffset⟩, fun p rest => bytes_append chunk rest p, fun p k hk => ?_⟩
  refine ⟨_, _, if_neg fun heq => ?_, rfl⟩
  rw [List.length_take, List.length_take] at heq
  omega

theorem streams_word (order : ByteOrder) (n : Nat) : Streams (word order n) :=
  (streams_bytes n).bind fun _ => streams_pure _

theorem streams_byte : Streams byte :=
  (streams_word .little 1).bind fun _ => streams_pure _

theorem streams_uint16 (order : ByteOrder) : Streams (uint16 order) :=
  (streams_word order 2).bind fun _ => streams_pure _

theorem streams_uint32 (order : ByteOrder) : Streams (uint32 order) :=
  (streams_word order 4).bind fun _ => streams_pure _

/-- A stored form that is cut short is recognised as such. -/
theorem Streams.fallsShort_take {valid : α → Prop} {stored : α → List UInt8} (h : Streams r)
    (hr : Reads r valid stored) {a : α} (ha : valid a) {k : Nat} (hk : k < (stored a).length)
    (p : Nat) : FallsShort r ⟨p, (stored a).take k⟩ := by
  have hwhole : r ⟨0, stored a⟩ = .ok a ⟨(stored a).length, []⟩ :=
    hr.eq_ok_iff.2 ⟨ha, (List.append_nil _).symm, (Nat.zero_add _).symm⟩
  obtain ⟨bs, ⟨hbs, -⟩, -, hshort⟩ := h _ a _ hwhole
  obtain rfl : stored a = bs := hbs.trans (List.append_nil bs)
  exact hshort p k hk

end Reader

open Reader

/-! ## Strings, cells and instructions -/

theorem ByteString.streams (order : ByteOrder) (form : StringForm) :
    Streams (ByteString.read order form) := by
  refine (streams_word order _).bind fun length => (streams_bytes length).bind fun content => ?_
  by_cases ht : form.terminated = true
  · simp only [if_pos ht]
    exact streams_byte.bind fun last => .guard (streams_lift _)
  · simp only [if_neg ht]
    exact streams_lift _

theorem CellType.streams (order : ByteOrder) (t : CellType) : Streams (t.read order) := by
  cases t with
  | string form => exact ByteString.streams order form
  | _ => exact (streams_word order _).bind fun _ => streams_pure _

theorem Operands.streams (order : ByteOrder) (fs : List Field) : Streams (Operands.read order fs) := by
  induction fs with
  | nil => exact streams_pure ()
  | cons f fs ih =>
    exact (CellType.streams order f.type).bind fun v => ih.bind fun rest => streams_pure (v, rest)

theorem Op.streams (order : ByteOrder) : Streams (Op.read order) := by
  refine streams_byte.bind fun byte => .guard ?_
  cases Opcode.ofByte? byte with
  | none => exact streams_throw _
  | some code =>
    exact (Operands.streams order code.signature).bind fun xs => streams_pure (Op.mk code xs)

/-! ## Tables and headers -/

theorem StringPool.streams (order : ByteOrder) (form : StringForm) :
    Streams (StringPool.read order form) :=
  (streams_uint16 order).bind fun count =>
    ((ByteString.streams order form).many count.toNat).bind fun _ => streams_lift _

theorem FunctionEntry.streams (order : ByteOrder) : Streams (FunctionEntry.read order) :=
  (ByteString.streams order _).bind fun _ => streams_byte.bind fun _ =>
    (streams_uint32 order).bind fun _ => streams_pure _

theorem FunctionEntry.streams_table (order : ByteOrder) : Streams (FunctionEntry.readTable order) :=
  (streams_uint16 order).bind fun count => (FunctionEntry.streams order).nested.many count.toNat

theorem Method.streams (order : ByteOrder) : Streams (Method.read order) :=
  (streams_uint16 order).bind fun _ => (streams_uint32 order).bind fun _ => streams_pure _

theorem ClassEntry.streams_members (order : ByteOrder) (width : CountWidth) :
    Streams (ClassEntry.readMembers order width) :=
  (streams_word order _).bind fun n => ((streams_uint16 order).many n).bind fun _ =>
    (streams_word order _).bind fun k => ((Method.streams order).many k).bind fun _ => streams_pure _

theorem ClassTable.streams_names (order : ByteOrder) (members : List (List UInt16 × List Method)) :
    Streams (ClassTable.readNames order members) := by
  induction members with
  | nil => exact streams_pure []
  | cons m ms ih =>
    exact (ByteString.streams order _).bind fun _ => ih.bind fun _ => streams_pure _

theorem ClassTable.streams (order : ByteOrder) (width : CountWidth) :
    Streams (ClassTable.read order width) :=
  (streams_uint16 order).bind fun count =>
    ((ClassEntry.streams_members order width).many count.toNat).bind fun members =>
      (ClassTable.streams_names order members).bind fun _ => streams_pure _

theorem Header.streams_sources (order : ByteOrder) (v : Version) :
    Streams (Header.readSources order v) := by
  unfold Header.readSources
  by_cases hv : v.hasSources = true
  · rw [if_pos hv]
    exact (StringPool.streams order _).bind fun _ => streams_pure _
  · rw [if_neg hv]
    exact streams_pure none

theorem Header.streams (order : ByteOrder) : Streams (Header.read order) := by
  refine (streams_uint32 _).bind fun found => .guard ?_
  refine (streams_uint16 order).bind fun major => (streams_uint16 order).bind fun minor => ?_
  refine (streams_lift (versionOf major minor)).bind fun version => ?_
  refine (StringPool.streams order _).bind fun strings => (StringPool.streams order _).bind fun globals => ?_
  refine (FunctionEntry.streams_table order).nested.bind fun functions => ?_
  refine (ClassTable.streams order _).bind fun classes => (StringPool.streams order _).bind fun symbols => ?_
  exact (Header.streams_sources order version).bind fun sources => streams_pure _

end ScriptImage
