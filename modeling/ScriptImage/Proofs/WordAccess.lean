import ScriptImage.Machine.Access
import ScriptImage.Proofs.Windows

/-!
# Accesses cause no fault

A window that lies in its buffer, with its cursor in the window, has all positions that an
access computes below the size of the buffer.  So on buffers shorter than `2 ^ 63` bytes no sum
leaves the words, no difference falls below zero and no range ends behind its buffer, and an
access in word arithmetic is the access of `WindowM`:

    MachineM.setBytes p bytes f = refused (WindowM.setBytes p bytes f)

Either way it ends in a state like that (`Focus.Follows`), so the next access causes no fault
either.
-/

namespace ScriptImage

/-- The size that no buffer reaches. -/
def bufferLimit : Nat := 2 ^ 63

/-! ## Sound states -/

namespace Memory

theorem length_buffer_of_map {m m' : Memory}
    (h : m'.buffers.map List.length = m.buffers.map List.length) (k : Nat) :
    (m'.buffer k).length = (m.buffer k).length := by
  have hk := congrArg (fun lengths => lengths[k]?) h
  simp only [List.getElem?_map] at hk
  unfold buffer
  cases hm : m.buffers[k]? with
  | none =>
    rw [hm, Option.map_none, Option.map_eq_none_iff] at hk
    rw [hk]
  | some bytes =>
    rw [hm, Option.map_some] at hk
    obtain ⟨bytes', hm', hlength⟩ := Option.map_eq_some_iff.1 hk
    rw [hm']
    exact hlength

end Memory

namespace Focus

/-- The window lies in a buffer shorter than the limit, and its cursor in the window. -/
structure Sound (f : Focus) : Prop where
  window : f.window.Sound f.memory
  small : (f.memory.buffer f.window.buffer).length < bufferLimit

/-- What an access may change: bytes, the cursor within the window, the byte order, and the
read-only flag from off to on. -/
structure Follows (f f' : Focus) : Prop where
  lengths : f'.memory.buffers.map List.length = f.memory.buffers.map List.length
  buffer : f'.window.buffer = f.window.buffer
  start : f'.window.start = f.window.start
  length : f'.window.length = f.window.length
  cursor : f'.window.offset ≤ f'.window.length
  readOnly : f.window.readOnly = true → f'.window.readOnly = true

variable {f f' f'' : Focus}

theorem Sound.bounds (h : f.Sound) :
    f.window.start + f.window.length ≤ (f.memory.buffer f.window.buffer).length ∧
      f.window.offset ≤ f.window.length ∧ f.window.start + f.window.length < wordLimit := by
  have hrange := h.window.range
  have hsmall := h.small
  have hlimit : bufferLimit < wordLimit := by decide
  exact ⟨hrange, h.window.cursor, by omega⟩

theorem Sound.follows (h : f.Sound) : f.Follows f :=
  ⟨rfl, rfl, rfl, rfl, h.window.cursor, id⟩

theorem Follows.trans (h : f.Follows f') (h' : f'.Follows f'') : f.Follows f'' where
  lengths := h'.lengths.trans h.lengths
  buffer := h'.buffer.trans h.buffer
  start := h'.start.trans h.start
  length := h'.length.trans h.length
  cursor := h'.cursor
  readOnly := fun hf => h'.readOnly (h.readOnly hf)

theorem Follows.sound (h : f.Follows f') (hf : f.Sound) : f'.Sound := by
  have hlength : (f'.memory.buffer f'.window.buffer).length = (f.memory.buffer f.window.buffer).length := by
    rw [h.buffer]
    exact Memory.length_buffer_of_map h.lengths _
  refine ⟨⟨?_, h.cursor⟩, ?_⟩
  · rw [hlength, h.start, h.length]
    exact hf.window.range
  · rw [hlength]
    exact hf.small

theorem follows_seek {p : Nat} (hp : p ≤ f.window.length) : f.Follows (f.seek p) :=
  ⟨rfl, rfl, rfl, rfl, hp, id⟩

theorem Sound.follows_store (h : f.Sound) {p : Nat} {bytes : List UInt8}
    (hp : p + bytes.length ≤ f.window.length) : f.Follows (f.store p bytes) := by
  have hrange := h.window.range
  exact ⟨Memory.map_length_store (by omega), rfl, rfl, rfl, h.window.cursor, id⟩

/-- A part of the window lies in the buffer of the window. -/
theorem Sound.part (h : f.Sound) {p n : Nat} (hp : p + n ≤ f.window.length) (readOnly : Bool) :
    (f.window.part p n readOnly).Sound f.memory := by
  have hrange := h.window.range
  refine ⟨?_, Nat.zero_le _⟩
  show f.window.start + p + n ≤ (f.memory.buffer f.window.buffer).length
  omega

/-- The window on the bytes from the cursor to the end. -/
def rest (f : Focus) : Focus :=
  ⟨f.memory, f.window.part f.window.offset (f.window.length - f.window.offset) false⟩

theorem Sound.rest (h : f.Sound) : f.rest.Sound := by
  have hcursor := h.window.cursor
  exact ⟨h.part (by omega) false, h.small⟩

theorem readOnly_rest (f : Focus) : f.rest.window.readOnly = f.window.readOnly :=
  Bool.or_false _

end Focus

/-! ## Outcomes -/

namespace Fault

variable {σ α β : Type}

/-- An outcome, with its error as that of a refused access. -/
def refusing : EStateM.Result Error σ α → EStateM.Result Fault σ α
  | .ok a s => .ok a s
  | .error e s => .error (.refused e) s

theorem refusing_ite {p : Prop} [Decidable p] (x y : EStateM.Result Error σ α) :
    refusing (if p then x else y) = if p then refusing x else refusing y := by
  by_cases hp : p
  · rw [if_pos hp, if_pos hp]
  · rw [if_neg hp, if_neg hp]

end Fault

/-! ## Steps -/

namespace MachineM

open Fault

variable {α β : Type} {f : Focus} {a b p n : Nat}

theorem plus_of_lt (h : a + b < wordLimit) (f : Focus) : plus a b f = .ok (a + b) f := by
  unfold plus
  rw [if_pos h]
  rfl

theorem minus_of_le (h : b ≤ a) (f : Focus) : minus a b f = .ok (a - b) f := by
  unfold minus
  rw [if_pos h]
  rfl

theorem window_eq (f : Focus) : window f = .ok f.window f := rfl

theorem slice_of_le (hfirst : a ≤ b) (hlast : b ≤ (f.memory.buffer f.window.buffer).length) :
    slice a b f = .ok (((f.memory.buffer f.window.buffer).drop a).take (b - a)) f := by
  show (if _ then pure _ else throw _ : MachineM (List UInt8)) f = _
  rw [if_pos ⟨hfirst, hlast⟩]
  rfl

theorem fill_of_le {bytes : List UInt8}
    (hlast : a + bytes.length ≤ (f.memory.buffer f.window.buffer).length) :
    fill a (a + bytes.length) bytes f =
      .ok () { f with memory := f.memory.store f.window.buffer a bytes } := by
  show (if _ then set _ else throw _ : MachineM Unit) f = _
  rw [if_pos ⟨by omega, hlast, by omega⟩]
  rfl

theorem checkRange_eq (hf : f.Sound) (access : Access) (p n : Nat) :
    checkRange access p n f =
      if p + n ≤ f.window.length then .ok () f
      else .error (.refused (.outsideWindow access n p f.window.length)) f := by
  show (if p + n < wordLimit ∧ p + n ≤ f.window.length then pure ()
    else throw (.refused (.outsideWindow access n p f.window.length)) : MachineM Unit) f = _
  obtain ⟨-, -, hwords⟩ := hf.bounds
  by_cases hp : p + n ≤ f.window.length
  · rw [if_pos hp, if_pos ⟨by omega, hp⟩]
    rfl
  · rw [if_neg hp, if_neg fun h => hp h.2]
    rfl

theorem checkWritable_eq (access : Access) (f : Focus) :
    checkWritable access f =
      if f.window.readOnly = true then .error (.refused (.readOnlyWindow access)) f else .ok () f := by
  show (if f.window.readOnly = true then throw (.refused (.readOnlyWindow access)) else pure () :
    MachineM Unit) f = _
  split <;> rfl

theorem advance_eq (hf : f.Sound) (hp : f.window.offset + n ≤ f.window.length) :
    advance n f = .ok () (f.seek (f.window.offset + n)) := by
  obtain ⟨-, -, hwords⟩ := hf.bounds
  show (plus f.window.offset n >>= fun offset => modifyWindow fun w => { w with offset }) f = _
  rw [Run.bind_of_ok (plus_of_lt (by omega) f)]
  rfl

theorem remaining_eq (hf : f.Sound) : remaining f = .ok (f.window.length - f.window.offset) f :=
  minus_of_le hf.window.cursor f

/-! ## Bytes and words -/

theorem getWith_eq (hf : f.Sound) (n : Nat) (decode : List UInt8 → α) (p : Nat) :
    getWith n decode p f =
      if p + n ≤ f.window.length then
        .ok (decode (((f.window.content f.memory).drop p).take n)) f
      else .error (.refused (.outsideWindow .read n p f.window.length)) f := by
  obtain ⟨hrange, -, hwords⟩ := hf.bounds
  have hcheck := checkRange_eq hf .read p n
  unfold getWith
  by_cases hp : p + n ≤ f.window.length
  · rw [if_pos hp] at hcheck
    have hlast : f.window.start + p + n - (f.window.start + p) = n := by omega
    rw [if_pos hp, Run.bind_of_ok hcheck, Run.bind_of_ok (window_eq f),
      Run.bind_of_ok (plus_of_lt (by omega) f), Run.bind_of_ok (plus_of_lt (by omega) f),
      Run.bind_of_ok (slice_of_le (by omega) (by omega)), hlast, Window.take_drop_content hp]
    rfl
  · rw [if_neg hp] at hcheck
    rw [if_neg hp, Run.bind_of_error hcheck]

theorem readWith_eq (hf : f.Sound) (n : Nat) (decode : List UInt8 → α) :
    readWith n decode f =
      if f.window.offset + n ≤ f.window.length then
        .ok (decode (((f.window.content f.memory).drop f.window.offset).take n))
          (f.seek (f.window.offset + n))
      else .error (.refused (.outsideWindow .read n f.window.offset f.window.length)) f := by
  have hget := getWith_eq hf n decode f.window.offset
  unfold readWith
  rw [Run.bind_of_ok (window_eq f)]
  by_cases hp : f.window.offset + n ≤ f.window.length
  · rw [if_pos hp] at hget
    rw [if_pos hp, Run.bind_of_ok hget, Run.bind_of_ok (advance_eq hf hp)]
    rfl
  · rw [if_neg hp] at hget
    rw [if_neg hp, Run.bind_of_error hget]

theorem setBytes_eq (hf : f.Sound) (p : Nat) (bytes : List UInt8) :
    setBytes p bytes f = refusing (WindowM.setBytes p bytes f) := by
  obtain ⟨hrange, -, hwords⟩ := hf.bounds
  have hwritable := checkWritable_eq .write f
  have hcheck := checkRange_eq hf .write p bytes.length
  rw [WindowM.setBytes_eq]
  unfold setBytes
  by_cases hreadOnly : f.window.readOnly = true
  · rw [if_pos hreadOnly] at hwritable
    rw [if_pos hreadOnly, Run.bind_of_error hwritable]
    rfl
  · rw [if_neg hreadOnly] at hwritable
    rw [if_neg hreadOnly, Run.bind_of_ok hwritable]
    by_cases hp : p + bytes.length ≤ f.window.length
    · rw [if_pos hp] at hcheck
      rw [if_pos hp, Run.bind_of_ok hcheck, Run.bind_of_ok (window_eq f),
        Run.bind_of_ok (plus_of_lt (by omega) f), Run.bind_of_ok (plus_of_lt (by omega) f),
        fill_of_le (by omega)]
      rfl
    · rw [if_neg hp] at hcheck
      rw [if_neg hp, Run.bind_of_error hcheck]
      rfl

theorem writeBytes_eq (hf : f.Sound) (bytes : List UInt8) :
    writeBytes bytes f = refusing (WindowM.writeBytes bytes f) := by
  have hset := setBytes_eq hf f.window.offset bytes
  rw [WindowM.setBytes_eq] at hset
  rw [WindowM.writeBytes_eq]
  unfold writeBytes
  rw [Run.bind_of_ok (window_eq f)]
  by_cases hreadOnly : f.window.readOnly = true
  · rw [if_pos hreadOnly] at hset ⊢
    rw [Run.bind_of_error hset]
    rfl
  · rw [if_neg hreadOnly] at hset ⊢
    by_cases hp : f.window.offset + bytes.length ≤ f.window.length
    · rw [if_pos hp] at hset ⊢
      have hstored := (hf.follows_store hp).sound hf
      rw [Run.bind_of_ok hset, advance_eq hstored hp]
      rfl
    · rw [if_neg hp] at hset ⊢
      rw [Run.bind_of_error hset]
      rfl

theorem content_eq (hf : f.Sound) : content f = .ok (f.window.content f.memory) f := by
  obtain ⟨hrange, -, hwords⟩ := hf.bounds
  have hlast : f.window.start + f.window.length - f.window.start = f.window.length := by omega
  unfold content
  rw [Run.bind_of_ok (window_eq f), Run.bind_of_ok (plus_of_lt hwords f),
    slice_of_le (by omega) hrange, hlast]
  rfl

/-! ## Cursors and parts -/

theorem seek_eq (p : Nat) (f : Focus) : seek p f = refusing (WindowM.seek p f) := by
  rw [WindowM.seek_eq]
  show (if f.window.length < p then throw _ else modifyWindow _ : MachineM Unit) f = _
  split <;> rfl

theorem skip_eq (hf : f.Sound) (n : Nat) : skip n f = refusing (WindowM.skip n f) := by
  have hcheck := checkRange_eq hf .skip f.window.offset n
  rw [WindowM.skip_eq]
  unfold skip
  rw [Run.bind_of_ok (window_eq f)]
  by_cases hp : f.window.offset + n ≤ f.window.length
  · rw [if_pos hp] at hcheck ⊢
    rw [Run.bind_of_ok hcheck, advance_eq hf hp]
    rfl
  · rw [if_neg hp] at hcheck ⊢
    rw [Run.bind_of_error hcheck]
    rfl

theorem getPart_eq (hf : f.Sound) (p n : Nat) (readOnly : Bool) :
    getPart p n readOnly f = refusing (WindowM.getPart p n readOnly f) := by
  obtain ⟨hrange, -, hwords⟩ := hf.bounds
  have hcheck := checkRange_eq hf .subView p n
  rw [WindowM.getPart_eq]
  unfold getPart
  by_cases hp : p + n ≤ f.window.length
  · rw [if_pos hp] at hcheck ⊢
    rw [Run.bind_of_ok hcheck, Run.bind_of_ok (window_eq f), Run.bind_of_ok (plus_of_lt (by omega) f)]
    rfl
  · rw [if_neg hp] at hcheck ⊢
    rw [Run.bind_of_error hcheck]
    rfl

theorem readPart_eq (hf : f.Sound) (n : Nat) (readOnly : Bool) :
    readPart n readOnly f = refusing (WindowM.readPart n readOnly f) := by
  have hget := getPart_eq hf f.window.offset n readOnly
  rw [WindowM.getPart_eq] at hget
  rw [WindowM.readPart_eq]
  unfold readPart
  rw [Run.bind_of_ok (window_eq f)]
  by_cases hp : f.window.offset + n ≤ f.window.length
  · rw [if_pos hp] at hget ⊢
    rw [Run.bind_of_ok hget, Run.bind_of_ok (advance_eq hf hp)]
    rfl
  · rw [if_neg hp] at hget ⊢
    rw [Run.bind_of_error hget]
    rfl

/-! ## Structures -/

theorem rest_eq (hf : f.Sound) : rest f = .ok f.rest.window f := by
  have hcursor := hf.window.cursor
  have hget := getPart_eq hf f.window.offset (f.window.length - f.window.offset) false
  rw [WindowM.getPart_eq, if_pos (by omega)] at hget
  unfold rest
  rw [Run.bind_of_ok (window_eq f), Run.bind_of_ok (remaining_eq hf)]
  exact hget

theorem within_of_ok {inner : MachineM α} {value : α} {g : Focus} (h : inner f.rest = .ok value g) :
    within f.rest.window inner f = .ok (value, g.window.offset) ⟨g.memory, f.window⟩ := by
  have h : inner ⟨f.memory, f.rest.window⟩ = .ok value g := h
  unfold within
  rw [h]

theorem within_of_error {inner : MachineM α} {fault : Fault} {g : Focus} (h : inner f.rest = .error fault g) :
    within f.rest.window inner f = .error fault ⟨g.memory, f.window⟩ := by
  have h : inner ⟨f.memory, f.rest.window⟩ = .error fault g := h
  unfold within
  rw [h]

end MachineM

end ScriptImage
