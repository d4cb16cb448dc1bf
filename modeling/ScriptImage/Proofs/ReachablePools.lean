import ScriptImage.Machine.PlainPool
import ScriptImage.Proofs.HeaderReading
import ScriptImage.Proofs.InliningPasses
import ScriptImage.Proofs.Storing
import ScriptImage.Proofs.Windows

/-!
# Reachable pools

The type of a running pool says how many entries it has and that they are of its form.  Here the
same is shown of the data alone, as what the operations keep up.  Taking off the proofs commutes
with every operation,

    PlainPool.push s.plain q.plain       = q.answer (q.push s)
    PlainPool.findOrPush s.plain q.plain = q.answer (q.findOrPush s)
    PlainPool.read order form            = StringPool.plain <$> StringPool.read order form
    q.plain.encode order                 = q.encode order

so the pools that calls lead to are the running ones without their proofs.  The one string that is
taken over unchecked, that of the pool's own form, was checked by whatever answered it.
-/

namespace ScriptImage

/-! ## Strings -/

namespace PlainString

variable {form : StringForm} {s : PlainString}

/-- A string that some call has answered. -/
inductive Built : PlainString → Prop
  | make {form : StringForm} {bytes : List UInt8} {s : PlainString} :
    PlainString.make form bytes = .ok s → Built s
  | recast {s s' : PlainString} {form : StringForm} : Built s → s.recast form = .ok s' → Built s'
  | parse {form : StringForm} {text : String} {s : PlainString} :
    PlainString.parse form text = .ok s → Built s
  | read {order : ByteOrder} {form : StringForm} {c c' : Cursor} {s : PlainString} :
    PlainString.read order form c = .ok s c' → Built s

theorem make_eq (form : StringForm) (bytes : List UInt8) :
    make form bytes = (ByteString.ofBytes form bytes).map ByteString.plain := by
  unfold make ByteString.ofBytes
  by_cases hfits : bytes.length ≤ form.maxLength
  · rw [if_neg (by omega), dif_pos hfits]
    by_cases hclean : form.terminated = true → 0 ∉ bytes
    · rw [if_neg (fun h => hclean h.1 h.2), dif_pos hclean]
      rfl
    · rw [if_pos (by simpa using hclean), dif_neg hclean]
      rfl
  · rw [if_pos (by omega), dif_neg hfits]
    rfl

theorem recast_plain (s : ByteString form) (form' : StringForm) :
    s.plain.recast form' = (s.recast form').map ByteString.plain :=
  make_eq form' s.bytes

theorem parse_eq (form : StringForm) (text : String) :
    parse form text = (ByteString.parse form text).map ByteString.plain := by
  unfold parse ByteString.parse
  cases ByteString.unquote? text.toList with
  | none => rfl
  | some inner =>
    show ByteString.unescape text [] inner >>= make form =
      Except.map ByteString.plain (ByteString.unescape text [] inner >>= ByteString.ofBytes form)
    cases ByteString.unescape text [] inner with
    | ok bytes => exact make_eq form bytes
    | error e => rfl

theorem read_eq (order : ByteOrder) (form : StringForm) :
    read order form = ByteString.plain <$> ByteString.read order form := by
  unfold read ByteString.read
  simp only [map_bind, apply_ite (Functor.map ByteString.plain), make_eq, Reader.lift_map]

theorem stored_plain (order : ByteOrder) (s : ByteString form) :
    s.plain.stored order = s.stored order := by
  -- the cast changes nothing
  have hlt : s.bytes.length < 256 ^ form.width.size := StringForm.lt_of_admits s.admitted
  show order.encode form.width.size (s.bytes.length % 256 ^ form.width.size) ++ s.bytes ++ form.terminator = _
  rw [Nat.mod_eq_of_lt hlt]
  rfl

theorem admits_of_map {x : Except Error (ByteString form)} (h : x.map ByteString.plain = .ok s) :
    s.form.Admits s.bytes := by
  obtain ⟨t, -, rfl⟩ := Run.except_map_eq_ok_iff.1 h
  exact t.admitted

/-- Whatever answers a string has checked it. -/
theorem Built.admits (h : s.Built) : s.form.Admits s.bytes := by
  cases h with
  | make h =>
    rw [make_eq] at h
    exact admits_of_map h
  | recast _ h =>
    rw [PlainString.recast, make_eq] at h
    exact admits_of_map h
  | parse h =>
    rw [parse_eq] at h
    exact admits_of_map h
  | read h =>
    rw [read_eq] at h
    obtain ⟨t, c, -, hlast⟩ := Run.bind_eq_ok_iff.1 h
    obtain ⟨rfl, -⟩ := Run.pure_eq_ok_iff.1 hlast
    exact t.admitted

theorem built_iff : s.Built ↔ s.form.Admits s.bytes := by
  refine ⟨Built.admits, fun h => ?_⟩
  have hmake : make s.form s.bytes = .ok s := by
    rw [make_eq, ByteString.ofBytes_bytes ⟨s.bytes, h⟩]
    rfl
  exact .make hmake

/-- The strings that calls answer are those of the running program. -/
theorem Built.exists_plain (h : s.Built) : ∃ form, ∃ t : ByteString form, t.plain = s :=
  ⟨s.form, ⟨s.bytes, h.admits⟩, rfl⟩

end PlainString

/-! ## Operations on pools -/

namespace PlainPool

variable {p p' : PlainPool} {s t : PlainString} {k : Nat} {e : Error}

theorem get_eq (p : PlainPool) : (get : EStateM Error PlainPool PlainPool) p = .ok p p :=
  rfl

theorem push_of_full (h : maxEntries ≤ p.entries.length) : push s p = .error .poolFull p := by
  refine (Run.bind_of_ok (get_eq p)).trans ?_
  rw [if_pos h]
  rfl

theorem push_of_entry (hroom : p.entries.length < maxEntries) (h : p.entry s = .ok t) :
    push s p = .ok p.entries.length { p with entries := p.entries ++ [t] } := by
  refine (Run.bind_of_ok (get_eq p)).trans ?_
  rw [if_neg (by omega), h]
  rfl

theorem push_of_refused (hroom : p.entries.length < maxEntries) (h : p.entry s = .error e) :
    push s p = .error e p := by
  refine (Run.bind_of_ok (get_eq p)).trans ?_
  rw [if_neg (by omega), h]
  rfl

theorem findOrPush_of_found (h : p.indexOf? s.bytes = some k) : findOrPush s p = .ok k p := by
  refine (Run.bind_of_ok (get_eq p)).trans ?_
  rw [h]
  rfl

theorem findOrPush_of_missing (h : p.indexOf? s.bytes = none) : findOrPush s p = push s p := by
  refine (Run.bind_of_ok (get_eq p)).trans ?_
  rw [h]

theorem pushTexts_cons_of_ok {text : String} {texts : List String}
    (h : PlainString.make p.form (Utf8.encode text) = .ok s) :
    pushTexts (text :: texts) p = (push s >>= fun _ => pushTexts texts) p := by
  refine (Run.bind_of_ok (get_eq p)).trans ?_
  rw [h]

theorem pushTexts_cons_of_error {text : String} {texts : List String}
    (h : PlainString.make p.form (Utf8.encode text) = .error e) :
    pushTexts (text :: texts) p = .error e p := by
  refine (Run.bind_of_ok (get_eq p)).trans ?_
  rw [h]
  rfl

/-- Only the form of a string can change when it becomes an entry. -/
theorem eq_of_entry (h : p.entry s = .ok t) : t = ⟨p.form, s.bytes⟩ := by
  unfold entry at h
  split at h
  · next hform =>
    cases h
    rw [← hform]
  · rw [PlainString.recast, PlainString.make_eq] at h
    obtain ⟨u, hu, rfl⟩ := Run.except_map_eq_ok_iff.1 h
    rw [← ByteString.bytes_of_ofBytes hu]
    rfl

/-- A push adds the content at the end, or is refused and leaves the pool alone. -/
theorem push_cases (s : PlainString) (p : PlainPool) :
    ((p.entries.length < maxEntries ∧ ∃ t, p.entry s = .ok t) ∧
      push s p = .ok p.entries.length { p with entries := p.entries ++ [⟨p.form, s.bytes⟩] }) ∨
    (¬(p.entries.length < maxEntries ∧ ∃ t, p.entry s = .ok t) ∧ ∃ e, push s p = .error e p) := by
  rcases Nat.lt_or_ge p.entries.length maxEntries with hroom | hfull
  · cases ht : p.entry s with
    | ok t => exact .inl ⟨⟨hroom, t, rfl⟩, eq_of_entry ht ▸ push_of_entry hroom ht⟩
    | error e =>
      refine .inr ⟨?_, e, push_of_refused hroom ht⟩
      rintro ⟨-, t, h⟩
      cases h
  · exact .inr ⟨fun h => absurd h.1 (by omega), _, push_of_full hfull⟩

theorem of_push (h : push s p = .ok k p') :
    p' = { p with entries := p.entries ++ [⟨p.form, s.bytes⟩] } ∧ k = p.entries.length := by
  obtain ⟨-, hrun⟩ | ⟨-, e, hrun⟩ := push_cases s p
  · rw [hrun] at h
    cases h
    exact ⟨rfl, rfl⟩
  · rw [hrun] at h
    cases h

theorem eq_of_push_error (h : push s p = .error e p') : p' = p := by
  obtain ⟨-, hrun⟩ | ⟨-, e, hrun⟩ := push_cases s p
  · rw [hrun] at h
    cases h
  · rw [hrun] at h
    cases h
    rfl

theorem indexOf?_eq (p : PlainPool) (bytes : List UInt8) :
    p.indexOf? bytes = p.contents.findIdx? (· == bytes) := by
  rw [contents, List.findIdx?_map]
  rfl

theorem indexOf?_eq_some_iff {bytes : List UInt8} :
    p.indexOf? bytes = some k ↔ IsFirst p.contents bytes k := by
  rw [indexOf?_eq]
  exact findIdx?_content_eq_some_iff

/-- The pool's form decides, whether the content is checked now or was before. -/
theorem exists_entry_iff (hs : s.Built) : (∃ t, p.entry s = .ok t) ↔ p.form.Admits s.bytes := by
  unfold entry
  split
  · next hform => exact iff_of_true ⟨s, rfl⟩ (hform ▸ hs.admits)
  · rw [PlainString.recast, PlainString.make_eq]
    constructor
    · rintro ⟨t, ht⟩
      obtain ⟨u, hu, -⟩ := Run.except_map_eq_ok_iff.1 ht
      exact ByteString.bytes_of_ofBytes hu ▸ u.admitted
    · intro h
      rw [ByteString.ofBytes_bytes ⟨s.bytes, h⟩]
      exact ⟨_, rfl⟩

/-- Room and content that the pool's form admits are all that a push asks for. -/
theorem exists_push_iff (hs : s.Built) :
    (∃ k p', push s p = .ok k p') ↔ p.entries.length < maxEntries ∧ p.form.Admits s.bytes := by
  rw [← exists_entry_iff hs]
  obtain ⟨hmade, hrun⟩ | ⟨hrefused, e, hrun⟩ := push_cases s p
  · exact iff_of_true ⟨_, _, hrun⟩ hmade
  · refine iff_of_false ?_ hrefused
    rintro ⟨k, p', h⟩
    rw [hrun] at h
    cases h

theorem isFirst_concat (h : p.indexOf? s.bytes = none) :
    IsFirst (contents { p with entries := p.entries ++ [⟨p.form, s.bytes⟩] }) s.bytes
      p.entries.length := by
  rw [indexOf?_eq] at h
  have hfirst := IsFirst.concat (not_mem_of_findIdx?_content h)
  rw [contents, List.length_map] at hfirst
  rw [contents, List.map_append]
  exact hfirst

/-- What is answered is the first place of the content, and it is found there from then on. -/
theorem of_findOrPush (h : findOrPush s p = .ok k p') :
    p'.form = p.form ∧ p.entries <+: p'.entries ∧ IsFirst p'.contents s.bytes k ∧
      findOrPush s p' = .ok k p' := by
  cases hfound : p.indexOf? s.bytes with
  | some j =>
    have hrun := findOrPush_of_found hfound
    rw [hrun] at h
    cases h
    exact ⟨rfl, List.prefix_refl _, indexOf?_eq_some_iff.1 hfound, hrun⟩
  | none =>
    rw [findOrPush_of_missing hfound] at h
    obtain ⟨rfl, rfl⟩ := of_push h
    have hfirst := isFirst_concat hfound
    exact ⟨rfl, List.prefix_append _ _, hfirst, findOrPush_of_found (indexOf?_eq_some_iff.2 hfirst)⟩

theorem eq_of_findOrPush_error (h : findOrPush s p = .error e p') : p' = p := by
  cases hfound : p.indexOf? s.bytes with
  | some j =>
    rw [findOrPush_of_found hfound] at h
    cases h
  | none =>
    rw [findOrPush_of_missing hfound] at h
    exact eq_of_push_error h

theorem exists_findOrPush_iff (hs : s.Built) :
    (∃ k p', findOrPush s p = .ok k p') ↔
      s.bytes ∈ p.contents ∨ p.entries.length < maxEntries ∧ p.form.Admits s.bytes := by
  cases hfound : p.indexOf? s.bytes with
  | some k =>
    have hmem := List.mem_of_getElem? (indexOf?_eq_some_iff.1 hfound).1
    exact iff_of_true ⟨k, p, findOrPush_of_found hfound⟩ (.inl hmem)
  | none =>
    rw [findOrPush_of_missing hfound, exists_push_iff hs]
    rw [indexOf?_eq] at hfound
    exact (or_iff_right (not_mem_of_findIdx?_content hfound)).symm

end PlainPool

/-! ## The same operations on running pools -/

namespace StringPool

variable {form : StringForm}

theorem contents_plain (q : StringPool) : q.plain.contents = q.contents := by
  rw [PlainPool.contents, plain, List.map_map]
  rfl

theorem length_plain (q : StringPool) : q.plain.entries.length = q.entries.size := by
  rw [plain, List.length_map, Array.length_toList]

theorem indexOf?_plain (q : StringPool) (bytes : List UInt8) :
    q.plain.indexOf? bytes = q.indexOf? bytes := by
  rw [PlainPool.indexOf?_eq, contents_plain, indexOf?_eq]

theorem plain_snoc (q : StringPool) (s : ByteString q.form) (room : q.entries.size < maxEntries) :
    (q.snoc s room).plain = { q.plain with entries := q.plain.entries ++ [s.plain] } := by
  simp [plain, snoc]

/-- A string of the pool's form is checked here and not there, with the same outcome. -/
theorem entry_plain (q : StringPool) (s : ByteString form) :
    q.plain.entry s.plain = (s.recast q.form).map ByteString.plain := by
  unfold PlainPool.entry
  split
  · next hform =>
    obtain rfl : form = q.form := hform
    rw [ByteString.recast, ByteString.ofBytes_bytes]
    rfl
  · exact PlainString.recast_plain s q.form

/-- An answer, with the pool as the state. -/
def answer (q : StringPool) : Except Error (StringPool × Nat) → EStateM.Result Error PlainPool Nat
  | .ok (q', k) => .ok k q'.plain
  | .error e => .error e q.plain

theorem push_plain (q : StringPool) (s : ByteString form) :
    PlainPool.push s.plain q.plain = q.answer (q.push s) := by
  unfold push
  by_cases room : q.entries.size < maxEntries
  · have hroom : q.plain.entries.length < maxEntries := by rwa [length_plain]
    rw [dif_pos room]
    cases hs : s.recast q.form with
    | ok s' =>
      have hentry : q.plain.entry s.plain = .ok s'.plain := by rw [entry_plain, hs]; rfl
      rw [PlainPool.push_of_entry hroom hentry, length_plain, ← plain_snoc q s' room]
      rfl
    | error e =>
      have hentry : q.plain.entry s.plain = .error e := by rw [entry_plain, hs]; rfl
      exact PlainPool.push_of_refused hroom hentry
  · rw [dif_neg room]
    exact PlainPool.push_of_full (by rw [length_plain]; omega)

theorem findOrPush_plain (q : StringPool) (s : ByteString form) :
    PlainPool.findOrPush s.plain q.plain = q.answer (q.findOrPush s) := by
  unfold findOrPush
  cases hfound : q.indexOf? s.bytes with
  | some k => exact PlainPool.findOrPush_of_found (by rw [indexOf?_plain]; exact hfound)
  | none =>
    rw [PlainPool.findOrPush_of_missing (by rw [indexOf?_plain]; exact hfound)]
    exact push_plain q s

theorem pushTexts_plain (q : StringPool) (texts : List String) :
    PlainPool.pushTexts texts q.plain =
      (q.pushTexts texts).2.elim (.ok () (q.pushTexts texts).1.plain)
        fun e => .error e (q.pushTexts texts).1.plain := by
  induction texts generalizing q with
  | nil => rfl
  | cons text texts ih =>
    have hmake : PlainString.make q.plain.form (Utf8.encode text) =
      (ByteString.ofText q.form text).map ByteString.plain := PlainString.make_eq _ _
    rw [pushTexts]
    cases hs : ByteString.ofText q.form text with
    | error e =>
      rw [hs] at hmake
      exact PlainPool.pushTexts_cons_of_error hmake
    | ok s =>
      rw [hs] at hmake
      rw [PlainPool.pushTexts_cons_of_ok hmake]
      by_cases room : q.entries.size < maxEntries
      · have hentry : q.plain.entry s.plain = .ok s.plain := if_pos rfl
        have hpush := PlainPool.push_of_entry (by rwa [length_plain]) hentry
        rw [Run.bind_of_ok hpush, ← plain_snoc q s room, ih]
        simp only [dif_pos room]
      · have hpush := PlainPool.push_of_full (s := s.plain) (p := q.plain) (by rw [length_plain]; omega)
        rw [Run.bind_of_error hpush]
        simp only [dif_neg room, Option.elim]

theorem ofTexts_plain (form : StringForm) (texts : List String) :
    PlainPool.ofTexts form texts = (ofTexts form texts).map plain := by
  have hrun := pushTexts_plain (empty form) texts
  unfold PlainPool.ofTexts ofTexts
  rw [show PlainPool.empty form = (empty form).plain from rfl, hrun]
  obtain ⟨q, failure⟩ := (empty form).pushTexts texts
  cases failure <;> rfl

theorem read_plain (order : ByteOrder) (form : StringForm) :
    PlainPool.read order form = plain <$> read order form := by
  unfold PlainPool.read read
  rw [PlainString.read_eq]
  simp only [Reader.many_map, map_bind, bind_map_left]
  funext c
  -- a count of two bytes is never too great, so the check of the running pool lets all through
  refine Run.bind_congr fun count c₁ _ => Run.bind_congr fun entries c₂ hentries => ?_
  obtain ⟨⟨hlength, -⟩, -⟩ := ((ByteString.reads order form).many _).eq_ok_iff.1 hentries
  have hlt := count.toNat_lt
  have hle : entries.length ≤ maxEntries := by unfold maxEntries; omega
  rw [ofList, dif_pos hle]
  rfl

theorem encode_plain (order : ByteOrder) (q : StringPool) :
    q.plain.encode order = q.encode order := by
  rw [PlainPool.encode, encode, length_plain, plain, List.flatMap_map]
  simp only [PlainString.stored_plain]

end StringPool

/-! ## Invariants -/

namespace PlainPool

variable {p : PlainPool} {order : ByteOrder}

/-- What the operations keep up. -/
structure Sound (p : PlainPool) : Prop where
  length_le : p.entries.length ≤ maxEntries
  form_eq : ∀ s ∈ p.entries, s.form = p.form
  fits : ∀ s ∈ p.entries, s.bytes.length < 256 ^ p.form.width.size
  clean : p.form.terminated = true → ∀ s ∈ p.entries, 0 ∉ s.bytes

/-- Storing the pool fails nowhere, cuts no number short and can be undone. -/
structure Lossless (order : ByteOrder) (p : PlainPool) : Prop where
  failure : (p.encode order).failure = none
  count : order.decode ((p.encode order).bytes.take 2) = p.entries.length
  lengths : ∀ s ∈ p.entries,
    order.decode ((s.stored order).take s.form.width.size) = s.bytes.length
  reads : ∀ offset rest, read order p.form ⟨offset, (p.encode order).bytes ++ rest⟩ =
    .ok p ⟨offset + (p.encode order).bytes.length, rest⟩

/-- The pools that calls lead to, failing ones included. -/
inductive Reachable : PlainPool → Prop
  | empty (form : StringForm) : Reachable (.empty form)
  | ofTexts {form : StringForm} {texts : List String} {p : PlainPool} :
    ofTexts form texts = .ok p → Reachable p
  | read {order : ByteOrder} {form : StringForm} {c c' : Cursor} {p : PlainPool} :
    read order form c = .ok p c' → Reachable p
  | push {p : PlainPool} {s : PlainString} : Reachable p → s.Built → Reachable (Run.left (push s) p)
  | findOrPush {p : PlainPool} {s : PlainString} :
    Reachable p → s.Built → Reachable (Run.left (findOrPush s) p)

theorem sound_plain (q : StringPool) : q.plain.Sound := by
  have hentry : ∀ s ∈ q.plain.entries, ∃ t : ByteString q.form, t.plain = s := by
    intro s hs
    obtain ⟨t, -, ht⟩ := List.mem_map.1 hs
    exact ⟨t, ht⟩
  refine ⟨q.length_plain ▸ q.size_le, fun s hs => ?_, fun s hs => ?_, fun hform s hs => ?_⟩
  · obtain ⟨t, rfl⟩ := hentry s hs
    rfl
  · obtain ⟨t, rfl⟩ := hentry s hs
    exact StringForm.lt_of_admits t.admitted
  · obtain ⟨t, rfl⟩ := hentry s hs
    exact t.admitted.2 hform

theorem lossless_plain (order : ByteOrder) (q : StringPool) : q.plain.Lossless order := by
  have hbytes : (q.plain.encode order).bytes = q.stored order := by
    rw [q.encode_plain]
    exact (q.writes order).2 trivial
  refine ⟨?_, ?_, fun s hs => ?_, fun offset rest => ?_⟩
  · rw [q.encode_plain]
    exact (q.writes order).1.2 trivial
  · have hlt : q.entries.size < 256 ^ 2 := by
      have := q.size_le
      unfold maxEntries at this
      omega
    rw [hbytes, StringPool.stored, order.decode_take_encode hlt, q.length_plain]
  · obtain ⟨t, -, rfl⟩ := List.mem_map.1 hs
    rw [PlainString.stored_plain, ByteString.stored, List.append_assoc]
    exact order.decode_take_encode (StringForm.lt_of_admits t.admitted) _
  · have hread : StringPool.read order q.form ⟨offset, q.stored order ++ rest⟩ =
      .ok q ⟨offset + (q.stored order).length, rest⟩ :=
      (StringPool.reads order q.form).eq_ok_iff.2 ⟨rfl, rfl, rfl⟩
    rw [hbytes, StringPool.read_plain]
    exact Run.bind_of_ok hread

/-- A call that runs on running pools leaves one of them. -/
theorem exists_plain_left {q : StringPool} {m : EStateM Error PlainPool Nat}
    {x : Except Error (StringPool × Nat)} (h : m q.plain = q.answer x) :
    ∃ q' : StringPool, q'.plain = Run.left m q.plain := by
  cases x with
  | ok answer => exact ⟨answer.1, (Run.left_of_ok h).symm⟩
  | error e => exact ⟨q, (Run.left_of_error h).symm⟩

/-- What calls lead to is a running pool without its proofs. -/
theorem Reachable.exists_plain (h : p.Reachable) : ∃ q : StringPool, q.plain = p := by
  induction h with
  | empty form => exact ⟨.empty form, rfl⟩
  | ofTexts h =>
    rw [StringPool.ofTexts_plain] at h
    obtain ⟨q, -, rfl⟩ := Run.except_map_eq_ok_iff.1 h
    exact ⟨q, rfl⟩
  | read h =>
    rw [StringPool.read_plain] at h
    obtain ⟨q, c, -, hlast⟩ := Run.bind_eq_ok_iff.1 h
    exact ⟨q, (Run.pure_eq_ok_iff.1 hlast).1.symm⟩
  | push _ hs ih =>
    obtain ⟨q, rfl⟩ := ih
    obtain ⟨form, t, rfl⟩ := hs.exists_plain
    exact exists_plain_left (q.push_plain t)
  | findOrPush _ hs ih =>
    obtain ⟨q, rfl⟩ := ih
    obtain ⟨form, t, rfl⟩ := hs.exists_plain
    exact exists_plain_left (q.findOrPush_plain t)

/-- **Reachable pools are sound and come back.**  Whatever calls a pool has been through, failed ones
among them, it is sound, entries stay where they are, a failing call leaves it alone, and what is found
or added is the first entry with its content and is found there again.  Only content that a full pool
lacks, or that the form does not admit, is refused.  So its counts and lengths are
stored in full, in either byte order, and reading gives the pool back.  It is a running pool without its
proofs, and calls on the one are calls on the other. -/
theorem sound_and_lossless_of_reachable (h : p.Reachable) :
    p.Sound ∧
    (∀ s : PlainString, s.Built →
      ((∃ k p', push s p = .ok k p') ↔ p.entries.length < maxEntries ∧ p.form.Admits s.bytes) ∧
      (∀ k p', push s p = .ok k p' →
        p' = { p with entries := p.entries ++ [⟨p.form, s.bytes⟩] } ∧ k = p.entries.length) ∧
      ∀ e p', push s p = .error e p' → p' = p) ∧
    (∀ s : PlainString, s.Built →
      ((∃ k p', findOrPush s p = .ok k p') ↔
        s.bytes ∈ p.contents ∨ p.entries.length < maxEntries ∧ p.form.Admits s.bytes) ∧
      (∀ k p', findOrPush s p = .ok k p' →
        p'.form = p.form ∧ p.entries <+: p'.entries ∧ IsFirst p'.contents s.bytes k ∧
          findOrPush s p' = .ok k p') ∧
      ∀ e p', findOrPush s p = .error e p' → p' = p) ∧
    (∀ order, p.Lossless order) ∧
    ∃ q : StringPool, q.plain = p ∧ (∀ order, p.encode order = q.encode order) ∧
      ∀ (form : StringForm) (s : ByteString form),
        push s.plain p = q.answer (q.push s) ∧ findOrPush s.plain p = q.answer (q.findOrPush s) := by
  obtain ⟨q, rfl⟩ := h.exists_plain
  refine ⟨sound_plain q, fun s hs => ?_, fun s hs => ?_, fun order => lossless_plain order q, q, rfl,
    fun order => ?_, fun form s => ?_⟩
  · exact ⟨exists_push_iff hs, fun _ _ => of_push, fun _ _ => eq_of_push_error⟩
  · exact ⟨exists_findOrPush_iff hs, fun _ _ => of_findOrPush, fun _ _ => eq_of_findOrPush_error⟩
  · exact q.encode_plain order
  · exact ⟨q.push_plain s, q.findOrPush_plain s⟩

/-- Two letters are stored in another form than they came in, a NUL is refused, and the letters are
found again. -/
theorem sound_and_lossless_of_reachable_sample :
    ∃ p : PlainPool, p.Reachable ∧ p = ⟨.p8z, [⟨.p8z, [97, 98]⟩]⟩ ∧ p.Sound ∧
      (∀ order, p.Lossless order) ∧ PlainString.Built ⟨.p16, [97, 98]⟩ ∧
      (∃ k p', findOrPush ⟨.p16, [97, 98]⟩ p = .ok k p') ∧ findOrPush ⟨.p16, [97, 98]⟩ p = .ok 0 p ∧
      push ⟨.p16, [0]⟩ p = .error (.stringHasNul .p8z) p := by
  have hletters : PlainString.Built ⟨.p16, [97, 98]⟩ := PlainString.built_iff.2 (by decide)
  have hnul : PlainString.Built ⟨.p16, [0]⟩ := PlainString.built_iff.2 (by decide)
  have hrun : Run.left (push ⟨.p16, [0]⟩) (Run.left (push ⟨.p16, [97, 98]⟩) (empty .p8z)) =
    ⟨.p8z, [⟨.p8z, [97, 98]⟩]⟩ := by decide +kernel
  have hreach := ((Reachable.empty .p8z).push hletters).push hnul
  rw [hrun] at hreach
  obtain ⟨hsound, -, hfind, hlossless, -⟩ := sound_and_lossless_of_reachable hreach
  have hfound := (hfind _ hletters).1.2 (.inl (by decide))
  exact ⟨_, hreach, rfl, hsound, hlossless, hletters, hfound, by decide +kernel, by decide +kernel⟩

end PlainPool

end ScriptImage
