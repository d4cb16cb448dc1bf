import ScriptImage.Proofs.StreamCuts

/-!
# Files that are cut short

The front of an accepted file is either accepted itself, as the same header with the routines
that start in it, or refused for a reason that tells where the cut is:

* in the header, or inside an instruction: bytes are missing, an error of range
* between two instructions of a routine: the routine is not terminated, an error of routines
* where code may end, with functions or methods beyond the cut: their routines are missing,
  an error of routines

No other error is possible, whatever the file holds and whichever of the two checks is on.
`Image.decode_take` states all of this as equivalences.
-/

namespace ScriptImage

open Reader (FallsShort)

namespace Code

/-! ## The front of a stream, by place -/

theorem eq_of_append_of_streamSize {before before' after after' : List Op}
    (h : before ++ after = before' ++ after') (hsize : streamSize before = streamSize before') :
    before = before' := by
  -- if one were longer, the instructions in between would take no room
  have hnil : ∀ front middle : List Op, streamSize (front ++ middle) = streamSize front → middle = [] := by
    intro front middle heq
    rw [streamSize_append] at heq
    by_contra hne
    have := streamSize_pos hne
    omega
  rcases List.append_eq_append_iff.1 h with ⟨middle, rfl, -⟩ | ⟨middle, rfl, -⟩
  · rw [hnil before middle hsize.symm, List.append_nil]
  · rw [hnil before' middle hsize, List.append_nil]

section Places

variable {order : ByteOrder} {base : UInt32} {expected : List UInt32} {bytes : List UInt8}
  {ops : List Op} {k p : Nat} (h : IsStream order base expected bytes ops)

include h

theorem exists_read_take_iff (hk : k ≤ bytes.length) :
    (∃ code c', Code.read order base expected ⟨p, bytes.take k⟩ = .ok code c') ↔
      (base.toNat + k = base.toNat ∨ (ofStream base ops).EndsRoutine (base.toNat + k)) ∧
        ∀ offset ∈ expected, offset.toNat < base.toNat + k := by
  rw [endsRoutine_iff h.closed h.fits_size]
  simp only [read_take_eq_ok_iff h hk]
  constructor
  · rintro ⟨_, _, before, after, hops, hbefore, hsize, hlt, -⟩
    exact ⟨⟨before, after, hops, hbefore, congrArg (base.toNat + ·) hsize⟩, hlt⟩
  · rintro ⟨⟨before, after, hops, hbefore, hsize⟩, hlt⟩
    exact ⟨_, _, before, after, hops, hbefore, Nat.add_left_cancel hsize, hlt, rfl, rfl⟩

/-- What is read of the front of a stream is the front of what is read of the stream. -/
theorem placed_of_read_take (hk : k ≤ bytes.length) {code : Code} {c' : Cursor}
    (hread : Code.read order base expected ⟨p, bytes.take k⟩ = .ok code c') :
    code.base = base ∧
      code.routines = ((ofStream base ops).placedBefore (base.toNat + k)).map Prod.fst ∧
      code.offsets = ((ofStream base ops).placedBefore (base.toNat + k)).map Prod.snd := by
  obtain ⟨before, after, rfl, hbefore, rfl, -, rfl, -⟩ := (read_take_eq_ok_iff h hk).1 hread
  have hlen : (ofStream base before).routines.length = (ofStream base before).offsets.length :=
    (length_startsFrom _ _).symm
  rw [placedBefore_ofStream_append hbefore h.fits_size]
  refine ⟨rfl, ?_, ?_⟩
  · rw [placed, List.map_fst_zip (Nat.le_of_eq hlen)]
  · rw [placed, List.map_snd_zip (Nat.le_of_eq hlen.symm)]

theorem kind_of_read_take (hk : k < bytes.length) {e : Error} {c' : Cursor}
    (hread : Code.read order base expected ⟨p, bytes.take k⟩ = .error e c') :
    e.kind = .range ∧ (ofStream base ops).InsideInstr (base.toNat + k) ∨
      e.kind = .subroutine ∧ ∃ before after, ops = before ++ after ∧ after ≠ [] ∧ k = streamSize before := by
  rw [h.stored, length_stored_stream] at hk
  obtain ⟨before, o, after, j, rfl, hj, rfl⟩ := exists_instr_at hk
  rcases Nat.eq_zero_or_pos j with rfl | hpos
  · rcases read_take_boundary h p with ⟨code, c₁, hok⟩ | ⟨e', c₁, herror, hkind⟩
    · rw [Nat.add_zero, hok] at hread
      cases hread
    · rw [Nat.add_zero, herror] at hread
      cases hread
      exact Or.inr ⟨hkind, before, o :: after, rfl, List.cons_ne_nil o after, rfl⟩
  · obtain ⟨e', c₁, herror, hkind⟩ := fallsShort_read_take h hpos hj p
    rw [herror] at hread
    cases hread
    exact Or.inl ⟨hkind, (insideInstr_iff h.closed h.fits_size).2 ⟨before, o, after, j, rfl, hpos, hj, rfl⟩⟩

theorem fallsShort_read_take_iff (hk : k < bytes.length) :
    FallsShort (Code.read order base expected) ⟨p, bytes.take k⟩ ↔
      (ofStream base ops).InsideInstr (base.toNat + k) := by
  constructor
  · rintro ⟨e, c', herror, hkind⟩
    rcases kind_of_read_take h hk herror with ⟨-, hinside⟩ | ⟨hother, -⟩
    · exact hinside
    · rw [hkind] at hother
      cases hother
  · intro hinside
    obtain ⟨before, o, after, j, rfl, hpos, hj, hn⟩ := (insideInstr_iff h.closed h.fits_size).1 hinside
    rw [Nat.add_left_cancel hn]
    exact fallsShort_read_take h hpos hj p

theorem subroutine_read_take_iff (hk : k < bytes.length) :
    (∃ e c', Code.read order base expected ⟨p, bytes.take k⟩ = .error e c' ∧ e.kind = .subroutine) ↔
      (ofStream base ops).InsideRoutine (base.toNat + k) ∨
        (base.toNat + k = base.toNat ∨ (ofStream base ops).EndsRoutine (base.toNat + k)) ∧
          ∃ offset ∈ expected, base.toNat + k ≤ offset.toNat := by
  have hok := exists_read_take_iff (p := p) h (Nat.le_of_lt hk)
  constructor
  · rintro ⟨e, c', herror, hkind⟩
    rcases kind_of_read_take h hk herror with ⟨hother, -⟩ | ⟨-, before, after, rfl, hafter, rfl⟩
    · rw [hkind] at hother
      cases hother
    · by_cases hbefore : Closed before
      · have hends := (endsRoutine_iff h.closed h.fits_size).2 ⟨before, after, rfl, hbefore, rfl⟩
        refine Or.inr ⟨hends, ?_⟩
        by_contra hnone
        obtain ⟨code, c₁, hread⟩ := hok.2
          ⟨hends, fun offset ho => Nat.lt_of_not_le fun hle => hnone ⟨offset, ho, hle⟩⟩
        rw [hread] at herror
        cases herror
      · obtain ⟨o, after, rfl⟩ := List.exists_cons_of_ne_nil hafter
        exact Or.inl ((insideRoutine_iff h.closed h.fits_size).2 ⟨before, o, after, rfl, hbefore, rfl⟩)
  · -- at the end of the instructions before the cut the error is the only way not to succeed
    have hboundary : ∀ before after, ops = before ++ after → k = streamSize before →
        (¬∃ code c', Code.read order base expected ⟨p, bytes.take k⟩ = .ok code c') →
        ∃ e c', Code.read order base expected ⟨p, bytes.take k⟩ = .error e c' ∧ e.kind = .subroutine := by
      rintro before after rfl rfl hnot
      exact (read_take_boundary h p).resolve_left hnot
    rintro (hinside | ⟨hends, offset, ho, hle⟩)
    · obtain ⟨before, o, after, hops, hopen, hn⟩ := (insideRoutine_iff h.closed h.fits_size).1 hinside
      refine hboundary before (o :: after) hops (Nat.add_left_cancel hn) fun ⟨code, c', hread⟩ => ?_
      obtain ⟨before', after', hops', hclosed, hsize, -⟩ :=
        (read_take_eq_ok_iff h (Nat.le_of_lt hk)).1 hread
      have heq := eq_of_append_of_streamSize (hops.symm.trans hops')
        ((Nat.add_left_cancel hn).symm.trans hsize)
      rw [heq] at hopen
      exact hopen hclosed
    · obtain ⟨before, after, hops, -, hn⟩ := (endsRoutine_iff h.closed h.fits_size).1 hends
      refine hboundary before after hops (Nat.add_left_cancel hn) fun hread => ?_
      exact Nat.not_lt_of_le hle ((hok.1 hread).2 offset ho)

end Places

end Code

/-! ## The header first -/

namespace Image

theorem decode_eq_run {options : DecodeOptions} {order : ByteOrder} {bytes : List UInt8}
    (hoptions : ∀ o ∈ options.order, o = order)
    (hfound : options.order = none → Header.detectOrder bytes = .ok order) :
    Image.decode options bytes =
      ((Image.read order options.verifyOffsets).runOn bytes >>= fun a => .ok a.1) := by
  obtain ⟨order?, verify⟩ := options
  cases order? with
  | some o =>
    obtain rfl := hoptions o rfl
    rfl
  | none =>
    unfold Image.decode
    simp only [hfound rfl]
    rfl

section Header

variable {options : DecodeOptions} {order : ByteOrder} {header : Header}
  (hoptions : ∀ o ∈ options.order, o = order) (hvalid : header.Storable ∧ header.DeclaredForms)

include hoptions hvalid

/-- A header that ends too early is reported as such, even where its magic is already missing. -/
theorem decode_take_header {n : Nat} (hn : n < header.size) :
    ∃ e, Image.decode options ((header.stored order).take n) = .error e ∧ e.kind = .range := by
  have hlen := header.length_stored order
  by_cases hfour : options.order = none ∧ n < 4
  · -- the byte order itself cannot be told
    obtain ⟨hnone, hfour⟩ := hfour
    obtain ⟨order?, verify⟩ := options
    obtain rfl : order? = none := hnone
    have hshort : (((header.stored order).take n).take 4).length < 4 := by
      rw [List.length_take, List.length_take]
      omega
    refine ⟨.outsideWindow .read 4 0 ((header.stored order).take n).length, ?_, rfl⟩
    unfold Image.decode Header.detectOrder
    simp only [if_pos hshort]
    rfl
  · have hfound : options.order = none →
        Header.detectOrder ((header.stored order).take n) = .ok order := by
      intro hnone
      have hfour : 4 ≤ n := Nat.le_of_not_lt fun hlt => hfour ⟨hnone, hlt⟩
      have hmagic := Header.take_stored order header []
      rw [List.append_nil] at hmagic
      exact Header.detectOrder_of_take (by rw [List.take_take, Nat.min_eq_left hfour, hmagic])
    obtain ⟨e, c', he, hkind⟩ := (Header.streams order).nested.fallsShort_take
      (Header.reads order).nested hvalid (by omega : n < (header.stored order).length) 0
    refine ⟨e, ?_, hkind⟩
    have hrun : (Image.read order options.verifyOffsets).runOn ((header.stored order).take n) =
        .error e := by
      unfold Reader.runOn Image.read
      rw [Run.bind_of_error he]
    rw [decode_eq_run hoptions hfound, hrun]
    rfl

/-- After the header, the outcome is that of the code. -/
theorem decode_append_iff (hsize : header.size ≤ maxOffset) (rest : List UInt8) :
    (∀ image, Image.decode options (header.stored order ++ rest) = .ok image ↔
      ∃ code c', Code.read order (UInt32.ofNat header.size)
          (if options.verifyOffsets then header.starts else []) ⟨header.size, rest⟩ = .ok code c' ∧
        image = ⟨header, code, order⟩) ∧
    ∀ e, Image.decode options (header.stored order ++ rest) = .error e ↔
      ∃ c', Code.read order (UInt32.ofNat header.size)
        (if options.verifyOffsets then header.starts else []) ⟨header.size, rest⟩ = .error e c' := by
  have hheader : Reader.nested (Header.read order) ⟨0, header.stored order ++ rest⟩ =
      .ok header ⟨header.size, rest⟩ := by
    refine (Header.reads order).nested.eq_ok_iff.2 ⟨hvalid, rfl, ?_⟩
    rw [header.length_stored, Nat.zero_add]
  rw [decode_eq_run hoptions fun _ => Header.detectOrder_stored order header rest]
  unfold Reader.runOn Image.read
  rw [Run.bind_of_ok hheader, Run.bind_of_ok (Run.get_eq_ok_iff.2 ⟨rfl, rfl⟩)]
  simp only [if_neg (Nat.not_lt_of_le hsize)]
  cases hcode : Code.read order (UInt32.ofNat header.size)
      (if options.verifyOffsets then header.starts else []) ⟨header.size, rest⟩ with
  | ok code c' =>
    rw [Run.bind_of_ok hcode]
    refine ⟨fun image => ⟨fun h => ⟨code, c', rfl, (Except.ok.inj h).symm⟩, ?_⟩, fun e => ⟨?_, ?_⟩⟩
    · rintro ⟨_, _, hread, rfl⟩
      cases hread
      rfl
    · intro h
      cases h
    · rintro ⟨_, h⟩
      cases h
  | error e c' =>
    rw [Run.bind_of_error hcode]
    refine ⟨fun image => ⟨?_, ?_⟩, fun e' => ⟨fun h => ⟨c', ?_⟩, ?_⟩⟩
    · intro h
      cases h
    · rintro ⟨_, _, h, -⟩
      cases h
    · cases h
      rfl
    · rintro ⟨_, h⟩
      cases h
      rfl

end Header

/-! ## Any cut -/

/-- Code may end at the position: the header or a routine does. -/
def MayEnd (image : Image) (n : Nat) : Prop :=
  n = image.header.size ∨ image.code.EndsRoutine n

/-- What an accepted file says about the outcome of decoding its first `n` bytes. -/
structure CutAt (options : DecodeOptions) (image : Image) (n : Nat) (outcome : Except Error Image) :
    Prop where
  accepted : (∃ front, outcome = .ok front) ↔
    image.header.size ≤ n ∧ image.MayEnd n ∧
      (options.verifyOffsets = false ∨ ∀ offset ∈ image.header.starts, offset.toNat < n)
  /-- What is accepted is the same header with the routines that start before the cut. -/
  kept : ∀ front, outcome = .ok front →
    front.header = image.header ∧ front.order = image.order ∧ front.code.base = image.code.base ∧
      front.code.routines = (image.code.placedBefore n).map Prod.fst ∧
      front.code.offsets = (image.code.placedBefore n).map Prod.snd
  range : (∃ e, outcome = .error e ∧ e.kind = .range) ↔
    n < image.header.size ∨ image.code.InsideInstr n
  subroutine : (∃ e, outcome = .error e ∧ e.kind = .subroutine) ↔
    image.code.InsideRoutine n ∨ image.MayEnd n ∧ options.verifyOffsets = true ∧
      ∃ offset ∈ image.header.starts, n ≤ offset.toNat
  nothingElse : ∀ e, outcome = .error e → e.kind = .range ∨ e.kind = .subroutine

theorem WellFormed.size_header_le {verify : Bool} {image : Image} (h : image.WellFormed verify) :
    image.header.size ≤ maxOffset :=
  Nat.le_trans (Nat.le_add_right _ _) h.fits

theorem take_stored_of_lt {image : Image} {n : Nat} (hn : n < image.header.size) :
    image.stored.take n = (image.header.stored image.order).take n := by
  rw [← image.header.length_stored image.order] at hn
  exact List.take_append_of_le_length (Nat.le_of_lt hn)

theorem take_stored_add (image : Image) (k : Nat) :
    image.stored.take (image.header.size + k) =
      image.header.stored image.order ++ (image.code.stored image.order).take k := by
  rw [← image.header.length_stored image.order, stored, List.take_length_add_append]

section Expected

variable {verify : Bool} {starts : List UInt32} {p : UInt32 → Prop}

theorem forall_expected_iff :
    (∀ offset ∈ (if verify then starts else []), p offset) ↔
      (verify = false ∨ ∀ offset ∈ starts, p offset) := by
  cases verify <;> simp

theorem exists_expected_iff :
    (∃ offset ∈ (if verify then starts else []), p offset) ↔
      (verify = true ∧ ∃ offset ∈ starts, p offset) := by
  cases verify <;> simp

end Expected

/-- The code of an accepted file as a stream. -/
theorem exists_stream_of_decode {options : DecodeOptions} {bytes : List UInt8} {image : Image}
    (h : Image.decode options bytes = .ok image) : ∃ base ops,
      UInt32.ofNat image.header.size = base ∧ base.toNat = image.header.size ∧
      Code.IsStream image.order base (if options.verifyOffsets then image.header.starts else [])
        (image.code.stored image.order) ops ∧
      image.code = Code.ofStream base ops := by
  obtain ⟨hoptions, hwf, rfl⟩ := decode_eq_ok_iff.1 h
  have hsize := hwf.size_header_le
  obtain ⟨code, c', hread, himage⟩ :=
    ((decode_append_iff hoptions ⟨hwf.storable, hwf.forms⟩ hsize _).1 image).1 h
  obtain ⟨ops, hstream, hops, -⟩ := Code.read_eq_ok_iff_isStream.1 hread
  exact ⟨_, ops, rfl, Code.toNat_ofNat_of_le hsize, hstream, (congrArg Image.code himage).trans hops⟩

/-- A cut in the header. -/
theorem cutAt_of_lt {options : DecodeOptions} {bytes : List UInt8} {image : Image} {n : Nat}
    (h : Image.decode options bytes = .ok image) (hn : n < image.header.size) :
    CutAt options image n (Image.decode options (bytes.take n)) := by
  obtain ⟨base, ops, -, hbase, hstream, hcode⟩ := exists_stream_of_decode h
  obtain ⟨hoptions, hwf, rfl⟩ := decode_eq_ok_iff.1 h
  obtain ⟨e, he, hkind⟩ := decode_take_header hoptions ⟨hwf.storable, hwf.forms⟩ hn
  -- no place of the code lies before the code
  have hend : ¬image.MayEnd n := by
    unfold MayEnd
    rw [hcode, ← hbase, Code.endsRoutine_iff hstream.closed hstream.fits_size]
    rintro ⟨before, -, -, -, rfl⟩
    omega
  have hinside : ¬image.code.InsideRoutine n := by
    rw [hcode, Code.insideRoutine_iff hstream.closed hstream.fits_size]
    rintro ⟨before, -, -, -, -, rfl⟩
    omega
  rw [take_stored_of_lt hn, he]
  refine ⟨⟨?_, ?_⟩, ?_, ⟨fun _ => Or.inl hn, fun _ => ⟨e, rfl, hkind⟩⟩, ⟨?_, ?_⟩, ?_⟩
  · rintro ⟨front, hfront⟩
    cases hfront
  · rintro ⟨hle, -⟩
    exact absurd hle (Nat.not_le_of_lt hn)
  · intro front hfront
    cases hfront
  · rintro ⟨e', he', hkind'⟩
    rw [Except.error.inj he', hkind'] at hkind
    cases hkind
  · rintro (h | ⟨h, -⟩)
    · exact absurd h hinside
    · exact absurd h hend
  · intro e' he'
    rw [← Except.error.inj he']
    exact Or.inl hkind

/-- A cut in the code. -/
theorem cutAt_of_le {options : DecodeOptions} {bytes : List UInt8} {image : Image} {n : Nat}
    (h : Image.decode options bytes = .ok image) (hn : n < bytes.length)
    (hle : image.header.size ≤ n) :
    CutAt options image n (Image.decode options (bytes.take n)) := by
  obtain ⟨base, ops, hofNat, hbase, hstream, hcode⟩ := exists_stream_of_decode h
  obtain ⟨hoptions, hwf, rfl⟩ := decode_eq_ok_iff.1 h
  have hsize := hwf.size_header_le
  obtain ⟨k, rfl⟩ := Nat.exists_eq_add_of_le hle
  have hk : k < (image.code.stored image.order).length := by
    rw [stored, List.length_append, image.header.length_stored] at hn
    omega
  obtain ⟨hok, herror⟩ := decode_append_iff hoptions ⟨hwf.storable, hwf.forms⟩ hsize
    ((image.code.stored image.order).take k)
  rw [← take_stored_add, hofNat] at hok herror
  have hread := Code.exists_read_take_iff (p := image.header.size) hstream (Nat.le_of_lt hk)
  have hrange := Code.fallsShort_read_take_iff (p := image.header.size) hstream hk
  have hsubroutine := Code.subroutine_read_take_iff (p := image.header.size) hstream hk
  rw [← hcode, hbase] at hread hrange hsubroutine
  rw [forall_expected_iff] at hread
  rw [exists_expected_iff] at hsubroutine
  refine ⟨⟨?_, ?_⟩, ?_, ⟨?_, ?_⟩, ⟨?_, ?_⟩, ?_⟩
  · rintro ⟨front, hfront⟩
    obtain ⟨code, c', hrun, -⟩ := (hok front).1 hfront
    exact ⟨hle, hread.1 ⟨code, c', hrun⟩⟩
  · rintro ⟨-, hplace⟩
    obtain ⟨code, c', hrun⟩ := hread.2 hplace
    exact ⟨_, (hok _).2 ⟨code, c', hrun, rfl⟩⟩
  · intro front hfront
    obtain ⟨code, c', hrun, rfl⟩ := (hok front).1 hfront
    have hkept := Code.placed_of_read_take hstream (Nat.le_of_lt hk) hrun
    rw [← hcode, hbase] at hkept
    refine ⟨rfl, rfl, hkept.1.trans ?_, hkept.2⟩
    rw [hcode]
    rfl
  · rintro ⟨e, he, hkind⟩
    obtain ⟨c', hrun⟩ := (herror e).1 he
    exact Or.inr (hrange.1 ⟨e, c', hrun, hkind⟩)
  · rintro (hlt | hinside)
    · exact absurd hlt (Nat.not_lt_of_le hle)
    · obtain ⟨e, c', hrun, hkind⟩ := hrange.2 hinside
      exact ⟨e, (herror e).2 ⟨c', hrun⟩, hkind⟩
  · rintro ⟨e, he, hkind⟩
    obtain ⟨c', hrun⟩ := (herror e).1 he
    exact hsubroutine.1 ⟨e, c', hrun, hkind⟩
  · intro hplace
    obtain ⟨e, c', hrun, hkind⟩ := hsubroutine.2 hplace
    exact ⟨e, (herror e).2 ⟨c', hrun⟩, hkind⟩
  · intro e he
    obtain ⟨c', hrun⟩ := (herror e).1 he
    rcases Code.kind_of_read_take hstream hk hrun with ⟨hkind, -⟩ | ⟨hkind, -⟩
    · exact Or.inl hkind
    · exact Or.inr hkind

/-- **A file that is cut short is never misread.**  Its front is accepted exactly if it ends where
code may end and no verified offset lies beyond, and is then the same header with the routines
that start in it.  Otherwise the error says whether bytes or routines are missing. -/
theorem decode_take {options : DecodeOptions} {bytes : List UInt8} {image : Image} {n : Nat}
    (h : Image.decode options bytes = .ok image) (hn : n < bytes.length) :
    CutAt options image n (Image.decode options (bytes.take n)) := by
  by_cases hlt : n < image.header.size
  · exact cutAt_of_lt h hlt
  · exact cutAt_of_le h hn (Nat.le_of_not_lt hlt)

/-- The sample without its last routine, which a method points at: verification misses it, and
without verification the first routine is left. -/
theorem decode_take_sample :
    sample.MayEnd 43 ∧
      (∃ e, Image.decode ⟨none, true⟩ (sample.stored.take 43) = .error e ∧ e.kind = .subroutine) ∧
      ∃ front, Image.decode ⟨none, false⟩ (sample.stored.take 43) = .ok front ∧
        front.code.routines = [[.op ⟨.pushTrue, ()⟩, .op .endRoutine]] := by
  have hdecode : ∀ verify, Image.decode ⟨none, verify⟩ sample.stored = .ok sample := by
    intro verify
    refine decode_eq_ok_iff.2 ⟨by simp, { wellFormed_sample with starts := fun _ => ?_ }, rfl⟩
    exact wellFormed_sample.starts rfl
  have hlen : 43 < sample.stored.length := by decide
  have hends : sample.MayEnd 43 :=
    Or.inr ⟨([.op ⟨.pushTrue, ()⟩, .op .endRoutine], 41), List.mem_cons_self, rfl⟩
  have hverified := decode_take (hdecode true) hlen
  have hplain := decode_take (hdecode false) hlen
  obtain ⟨front, hfront⟩ := hplain.accepted.2 ⟨by decide, hends, Or.inl rfl⟩
  refine ⟨hends, hverified.subroutine.2 (Or.inr ⟨hends, rfl, 43, by decide, Nat.le_refl 43⟩),
    front, hfront, ?_⟩
  obtain ⟨-, -, -, hroutines, -⟩ := hplain.kept front hfront
  exact hroutines

end Image

end ScriptImage
