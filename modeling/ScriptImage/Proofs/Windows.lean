import ScriptImage.Proofs.Runs
import ScriptImage.Workspace

/-!
# Accesses to windows

Every access to a window comes down to bytes of its buffer: at position `p` of a window that
begins at `start`, they are those from `start + p` on.  An access succeeds exactly if it lies
in the window, and a write asks first whether the window may be written:

    setBytes p bytes f = .ok () (f.store p bytes)      if the window is writable and p + … ≤ length

A failed access leaves the window and the memory as they are.
-/

namespace ScriptImage

/-! ## The state that is left -/

namespace Run

variable {ε σ α β : Type} {x : EStateM ε σ α} {s s' : σ}

/-- The state that a computation leaves, whether it succeeds or fails. -/
def left (x : EStateM ε σ α) (s : σ) : σ :=
  match x s with
  | .ok _ s' => s'
  | .error _ s' => s'

theorem left_of_ok {a : α} (h : x s = .ok a s') : left x s = s' := by
  rw [left, h]

theorem left_of_error {e : ε} (h : x s = .error e s') : left x s = s' := by
  rw [left, h]

theorem left_bind (x : EStateM ε σ α) (f : α → EStateM ε σ β) (s : σ) :
    (∃ e, x s = .error e (left x s) ∧ left (x >>= f) s = left x s) ∨
      ∃ a, x s = .ok a (left x s) ∧ left (x >>= f) s = left (f a) (left x s) := by
  cases h : x s with
  | ok a s' =>
    right
    refine ⟨a, by rw [left_of_ok h], ?_⟩
    rw [left_of_ok h, left, bind_of_ok h, left]
  | error e s' =>
    left
    refine ⟨e, by rw [left_of_error h], ?_⟩
    rw [left_of_error h, left, bind_of_error h]

end Run

/-! ## Bytes of a memory -/

/-- A part of a list is told by its elements. -/
theorem take_drop_eq_of_getElem? {α : Type} {xs part : List α} {p : Nat}
    (h : ∀ i < part.length, xs[p + i]? = part[i]?) : (xs.drop p).take part.length = part := by
  apply List.ext_getElem?
  intro i
  by_cases hi : i < part.length
  · rw [List.getElem?_take_of_lt hi, List.getElem?_drop, h i hi]
  · rw [List.getElem?_take_eq_none (by omega), List.getElem?_eq_none (by omega)]

namespace Memory

variable {content bytes : List UInt8} {p : Nat} {m : Memory}

theorem length_splice (h : p + bytes.length ≤ content.length) :
    (splice content p bytes).length = content.length := by
  unfold splice
  simp only [List.length_append, List.length_take, List.length_drop]
  omega

theorem getElem?_splice (h : p + bytes.length ≤ content.length) (i : Nat) :
    (splice content p bytes)[i]? =
      if p ≤ i ∧ i < p + bytes.length then bytes[i - p]? else content[i]? := by
  have htake : (content.take p).length = p := by
    rw [List.length_take]
    omega
  unfold splice
  rw [List.append_assoc]
  by_cases hlow : i < p
  · rw [if_neg (by omega), List.getElem?_append_left (by omega), List.getElem?_take_of_lt hlow]
  · rw [List.getElem?_append_right (by omega), htake]
    by_cases hhigh : i < p + bytes.length
    · rw [if_pos (by omega), List.getElem?_append_left (by omega)]
    · rw [if_neg (by omega), List.getElem?_append_right (by omega), List.getElem?_drop]
      congr 1
      omega

/-- Overwriting a range, and then the range behind it, is overwriting both at once. -/
theorem splice_splice {more : List UInt8} (h : p + bytes.length + more.length ≤ content.length) :
    splice (splice content p bytes) (p + bytes.length) more = splice content p (bytes ++ more) := by
  have hfirst : p + bytes.length ≤ content.length := by omega
  have hlength := length_splice hfirst
  have hboth : p + (bytes ++ more).length ≤ content.length := by
    rw [List.length_append]
    omega
  apply List.ext_getElem?
  intro i
  rw [getElem?_splice (by omega), getElem?_splice hfirst, getElem?_splice hboth, List.length_append]
  by_cases hmore : p + bytes.length ≤ i ∧ i < p + bytes.length + more.length
  · rw [if_pos hmore, if_pos (by omega), List.getElem?_append_right (by omega)]
    congr 1
    omega
  · rw [if_neg hmore]
    by_cases hbytes : p ≤ i ∧ i < p + bytes.length
    · rw [if_pos hbytes, if_pos (by omega), List.getElem?_append_left (by omega)]
    · rw [if_neg hbytes, if_neg (by omega)]

/-- Storing changes one buffer. -/
theorem buffer_store {k : Nat} (h : p + bytes.length ≤ (m.buffer k).length) (j : Nat) :
    (m.store k p bytes).buffer j = if j = k then splice (m.buffer k) p bytes else m.buffer j := by
  unfold store buffer
  by_cases hjk : j = k
  · subst hjk
    rw [if_pos rfl, List.getElem?_modify_eq]
    cases hbuffer : m.buffers[j]? with
    | some content => simp
    | none =>
      -- there is no such buffer, and nothing is stored
      have hnil : m.buffer j = [] := by rw [buffer, hbuffer, Option.getD_none]
      rw [hnil, List.length_nil] at h
      obtain rfl : p = 0 := by omega
      obtain rfl : bytes = [] := List.length_eq_zero_iff.1 (by omega)
      simp [splice]
  · rw [if_neg hjk, List.getElem?_modify_ne _ _ fun h => hjk h.symm]

/-- The bytes after a store: those stored in their range, and the old ones everywhere else. -/
theorem getElem?_store {k : Nat} (h : p + bytes.length ≤ (m.buffer k).length) (j i : Nat) :
    ((m.store k p bytes).buffer j)[i]? =
      if j = k ∧ p ≤ i ∧ i < p + bytes.length then bytes[i - p]? else (m.buffer j)[i]? := by
  rw [buffer_store h]
  by_cases hjk : j = k
  · rw [if_pos hjk, getElem?_splice h, hjk]
    simp only [true_and]
  · rw [if_neg hjk, if_neg fun h => hjk h.1]

theorem store_store {k : Nat} {more : List UInt8} (h : p + bytes.length + more.length ≤ (m.buffer k).length) :
    (m.store k p bytes).store k (p + bytes.length) more = m.store k p (bytes ++ more) := by
  unfold store
  congr 1
  apply List.ext_getElem?
  intro j
  by_cases hjk : k = j
  · subst hjk
    rw [List.getElem?_modify_eq, List.getElem?_modify_eq, List.getElem?_modify_eq]
    cases hbuffer : m.buffers[k]? with
    | none => rfl
    | some content =>
      have hcontent : m.buffer k = content := by rw [buffer, hbuffer, Option.getD_some]
      rw [hcontent] at h
      exact congrArg some (splice_splice h)
  · rw [List.getElem?_modify_ne _ _ hjk, List.getElem?_modify_ne _ _ hjk, List.getElem?_modify_ne _ _ hjk]

theorem map_length_store {k : Nat} (h : p + bytes.length ≤ (m.buffer k).length) :
    (m.store k p bytes).buffers.map List.length = m.buffers.map List.length := by
  apply List.ext_getElem?
  intro j
  unfold store
  rw [List.getElem?_map, List.getElem?_map]
  by_cases hjk : k = j
  · subst hjk
    rw [List.getElem?_modify_eq]
    cases hbuffer : m.buffers[k]? with
    | none => rfl
    | some content =>
      have hcontent : m.buffer k = content := by rw [buffer, hbuffer, Option.getD_some]
      rw [hcontent] at h
      exact congrArg some (length_splice h)
  · rw [List.getElem?_modify_ne _ _ hjk]

end Memory

/-! ## Windows in a memory -/

namespace Window

variable {w : Window} {m : Memory}

/-- A window lies in its buffer, and its cursor in the window. -/
structure Sound (w : Window) (m : Memory) : Prop where
  range : w.start + w.length ≤ (m.buffer w.buffer).length
  cursor : w.offset ≤ w.length

theorem Sound.length_content (h : w.Sound m) : (w.content m).length = w.length := by
  have hrange := h.range
  unfold content
  rw [List.length_take, List.length_drop]
  omega

/-- Bytes of a window are bytes of its buffer. -/
theorem take_drop_content {p n : Nat} (h : p + n ≤ w.length) :
    ((w.content m).drop p).take n = ((m.buffer w.buffer).drop (w.start + p)).take n := by
  unfold content
  rw [List.drop_take, List.take_take, List.drop_drop]
  congr 1
  omega

end Window

namespace Focus

/-- With bytes stored from a position of the window on. -/
def store (f : Focus) (p : Nat) (bytes : List UInt8) : Focus :=
  { f with memory := f.memory.store f.window.buffer (f.window.start + p) bytes }

/-- With the cursor moved to a position. -/
def seek (f : Focus) (p : Nat) : Focus :=
  { f with window := { f.window with offset := p } }

end Focus

/-! ## Accesses -/

namespace WindowM

variable {f : Focus}

theorem getBytes_eq (p n : Nat) (f : Focus) :
    getBytes p n f =
      if p + n ≤ f.window.length then .ok (((f.window.content f.memory).drop p).take n) f
      else .error (.outsideWindow .read n p f.window.length) f := by
  show (lift (f.window.checkRange .read p n) >>= fun _ =>
    (do return ((← content).drop p).take n : WindowM (List UInt8))) f = _
  unfold Window.checkRange
  split <;> rfl

theorem readBytes_eq (n : Nat) (f : Focus) :
    readBytes n f =
      if f.window.offset + n ≤ f.window.length then
        .ok (((f.window.content f.memory).drop f.window.offset).take n) (f.seek (f.window.offset + n))
      else .error (.outsideWindow .read n f.window.offset f.window.length) f := by
  have hget := getBytes_eq f.window.offset n f
  show (getBytes f.window.offset n >>= fun bytes =>
    (do advance n; return bytes : WindowM (List UInt8))) f = _
  split at hget
  · next h =>
    rw [Run.bind_of_ok hget, if_pos h]
    rfl
  · next h => rw [Run.bind_of_error hget, if_neg h]

theorem setBytes_eq (p : Nat) (bytes : List UInt8) (f : Focus) :
    setBytes p bytes f =
      if f.window.readOnly = true then .error (.readOnlyWindow .write) f
      else if p + bytes.length ≤ f.window.length then .ok () (f.store p bytes)
      else .error (.outsideWindow .write bytes.length p f.window.length) f := by
  show (lift (f.window.checkWritable .write) >>= fun _ =>
    (lift (f.window.checkRange .write p bytes.length) >>= fun _ =>
      modify fun s => { s with
        memory := s.memory.store f.window.buffer (f.window.start + p) bytes } : WindowM Unit)) f = _
  unfold Window.checkWritable Window.checkRange
  split
  · rfl
  · split <;> rfl

theorem writeBytes_eq (bytes : List UInt8) (f : Focus) :
    writeBytes bytes f =
      if f.window.readOnly = true then .error (.readOnlyWindow .write) f
      else if f.window.offset + bytes.length ≤ f.window.length then
        .ok () ((f.store f.window.offset bytes).seek (f.window.offset + bytes.length))
      else .error (.outsideWindow .write bytes.length f.window.offset f.window.length) f := by
  have hset := setBytes_eq f.window.offset bytes f
  show (setBytes f.window.offset bytes >>= fun _ => advance bytes.length) f = _
  split at hset
  · next h => rw [Run.bind_of_error hset, if_pos h]
  · next h =>
    rw [if_neg h]
    split at hset
    · next h' =>
      rw [Run.bind_of_ok hset, if_pos h']
      rfl
    · next h' => rw [Run.bind_of_error hset, if_neg h']

theorem getScalar_eq (s : Scalar) (order : Option ByteOrder) (p : Nat) (f : Focus) :
    getScalar s order p f =
      if p + s.width.size ≤ f.window.length then
        .ok (s.ofBytes (order.getD f.window.order)
          (((f.window.content f.memory).drop p).take s.width.size)) f
      else .error (.outsideWindow .read s.width.size p f.window.length) f := by
  have hget := getBytes_eq p s.width.size f
  show (getBytes p s.width.size >>= fun bytes =>
    (return s.ofBytes (order.getD f.window.order) bytes : WindowM s.Bits)) f = _
  split at hget
  · next h =>
    rw [Run.bind_of_ok hget, if_pos h]
    rfl
  · next h => rw [Run.bind_of_error hget, if_neg h]

theorem length_stored (s : Scalar) (order : ByteOrder) (v : s.Bits) :
    (s.stored order v).length = s.width.size :=
  ByteOrder.length_encode _ _ _

theorem writeScalar_eq (s : Scalar) (order : Option ByteOrder) (v : s.Bits) (f : Focus) :
    writeScalar s order v f = writeBytes (s.stored (order.getD f.window.order) v) f := by
  unfold writeScalar writeBytes
  rw [length_stored]
  rfl

theorem readScalar_eq (s : Scalar) (order : Option ByteOrder) (f : Focus) :
    readScalar s order f =
      (do return s.ofBytes (order.getD f.window.order) (← readBytes s.width.size) : WindowM s.Bits) f := by
  have hget := getScalar_eq s order f.window.offset f
  have hread := readBytes_eq s.width.size f
  show (getScalar s order f.window.offset >>= fun v =>
    (do advance s.width.size; return v : WindowM s.Bits)) f = _
  split at hget
  · next h =>
    rw [if_pos h] at hread
    rw [Run.bind_of_ok hget, Run.bind_of_ok hread]
    rfl
  · next h =>
    rw [if_neg h] at hread
    rw [Run.bind_of_error hget, Run.bind_of_error hread]

theorem seek_eq (p : Nat) (f : Focus) :
    seek p f =
      if f.window.length < p then .error (.cursorPastEnd p f.window.length) f
      else .ok () (f.seek p) := by
  show (if f.window.length < p then
      (throw (.cursorPastEnd p f.window.length) : WindowM PUnit) >>= fun _ =>
        modifyWindow fun w => { w with offset := p }
    else modifyWindow fun w => { w with offset := p } : WindowM Unit) f = _
  split <;> rfl

theorem skip_eq (n : Nat) (f : Focus) :
    skip n f =
      if f.window.offset + n ≤ f.window.length then .ok () (f.seek (f.window.offset + n))
      else .error (.outsideWindow .skip n f.window.offset f.window.length) f := by
  show (lift (f.window.checkRange .skip f.window.offset n) >>= fun _ => advance n) f = _
  unfold Window.checkRange
  split <;> rfl

theorem getPart_eq (p n : Nat) (readOnly : Bool) (f : Focus) :
    getPart p n readOnly f =
      if p + n ≤ f.window.length then .ok (f.window.part p n readOnly) f
      else .error (.outsideWindow .subView n p f.window.length) f := by
  show (lift (f.window.checkRange .subView p n) >>= fun _ =>
    (pure (f.window.part p n readOnly) : WindowM Window)) f = _
  unfold Window.checkRange
  split <;> rfl

/-- A part that is made lies in the window. -/
theorem part_of_getPart {n : Nat} {readOnly : Bool} {v : Window} {f f' : Focus}
    (h : getPart p n readOnly f = .ok v f') :
    p + n ≤ f.window.length ∧ v = f.window.part p n readOnly ∧ f'.memory = f.memory := by
  rw [getPart_eq] at h
  split at h
  · next hp =>
    cases h
    exact ⟨hp, rfl, rfl⟩
  · cases h

theorem readPart_eq (n : Nat) (readOnly : Bool) (f : Focus) :
    readPart n readOnly f =
      if f.window.offset + n ≤ f.window.length then
        .ok (f.window.part f.window.offset n readOnly) (f.seek (f.window.offset + n))
      else .error (.outsideWindow .subView n f.window.offset f.window.length) f := by
  have hget := getPart_eq f.window.offset n readOnly f
  show (getPart f.window.offset n readOnly >>= fun part =>
    (do advance n; return part : WindowM Window)) f = _
  split at hget
  · next h =>
    rw [Run.bind_of_ok hget, if_pos h]
    rfl
  · next h => rw [Run.bind_of_error hget, if_neg h]

theorem part_of_readPart {n : Nat} {readOnly : Bool} {v : Window} {f f' : Focus}
    (h : readPart n readOnly f = .ok v f') :
    f.window.offset + n ≤ f.window.length ∧ v = f.window.part f.window.offset n readOnly ∧
      f'.memory = f.memory := by
  rw [readPart_eq] at h
  split at h
  · next hp =>
    cases h
    exact ⟨hp, rfl, rfl⟩
  · cases h

/-- Writing a structure that fits stores its bytes, and moves the cursor unless it failed. -/
theorem writeStructure_eq (announced : Nat) (encode : ByteOrder → Encoding) {e : Encoding}
    (he : encode f.window.order = e) :
    writeStructure announced encode f =
      if f.window.readOnly = true then .error (.readOnlyWindow .wholeWrite) f
      else if f.window.offset + announced ≤ f.window.length then
        if f.window.length - f.window.offset < e.bytes.length then
          .error (.outsideWindow .write e.bytes.length 0 (f.window.length - f.window.offset)) f
        else
          match (Encoding.announced announced e).failure with
          | some err => .error err (f.store f.window.offset e.bytes)
          | none => .ok () ((f.store f.window.offset e.bytes).seek (f.window.offset + announced))
      else .error (.outsideWindow .wholeWrite announced f.window.offset f.window.length) f := by
  subst he
  show (lift (f.window.checkWritable .wholeWrite) >>= fun _ =>
    lift (f.window.checkRange .wholeWrite f.window.offset announced) >>= fun _ =>
      if f.window.remaining < (encode f.window.order).bytes.length then
        (throw (.outsideWindow .write (encode f.window.order).bytes.length 0 f.window.remaining) :
          WindowM PUnit) >>= _
      else
        (modify fun s => { s with
          memory := s.memory.store f.window.buffer (f.window.start + f.window.offset)
            (encode f.window.order).bytes } : WindowM PUnit) >>= fun _ =>
          lift (Encoding.announced announced (encode f.window.order)).toExcept >>= fun _ =>
            advance announced : WindowM Unit) f = _
  unfold Window.checkWritable Window.checkRange Window.remaining Encoding.toExcept
  split
  · rfl
  · split
    · show (if _ then _ else _ : WindowM Unit) f = _
      split
      · rfl
      · cases (Encoding.announced announced (encode f.window.order)).failure with
        | some err => rfl
        | none => rfl
    · rfl

end WindowM

/-! ## Requests -/

namespace Workspace

variable {α β : Type} {s : Workspace} {k : Nat} {w : Window}

/-- Every window lies in its buffer, and every cursor in its window. -/
def Sound (s : Workspace) : Prop :=
  ∀ w ∈ s.windows, w.Sound s.memory

/-- The memory and a window after an access through that window. -/
def refocus (s : Workspace) (k : Nat) (f : Focus) : Workspace :=
  ⟨f.memory, s.windows.set k f.window⟩

theorem refocus_self (hk : s.windows[k]? = some w) : s.refocus k ⟨s.memory, w⟩ = s := by
  have hset : s.windows.set k w = s.windows := by
    apply List.ext_getElem?
    intro j
    by_cases hj : k = j
    · subst hj
      have hlt : k < s.windows.length := (List.getElem?_eq_some_iff.1 hk).1
      rw [List.getElem?_set_self hlt, hk]
    · rw [List.getElem?_set_ne hj]
  rw [refocus, hset]

theorem through_eq (act : WindowM α) (hk : s.windows[k]? = some w) :
    through k act s =
      match act ⟨s.memory, w⟩ with
      | .ok a f => .ok (some a) (s.refocus k f)
      | .error e f => .error e (s.refocus k f) := by
  rw [through, hk]
  rfl

theorem through_none (act : WindowM α) (hk : s.windows[k]? = none) : through k act s = .ok none s := by
  rw [through, hk]

/-- Whatever follows an access goes on where the access leaves the workspace. -/
theorem through_bind_eq (act : WindowM α) (next : Option α → WorkspaceM Reply)
    (hk : s.windows[k]? = some w) :
    (through k act >>= next) s =
      match act ⟨s.memory, w⟩ with
      | .ok a f => next (some a) (s.refocus k f)
      | .error e f => .error e (s.refocus k f) := by
  have hthrough := through_eq act hk
  cases hact : act ⟨s.memory, w⟩ with
  | ok a f =>
    rw [hact] at hthrough
    rw [Run.bind_of_ok hthrough]
  | error e f =>
    rw [hact] at hthrough
    rw [Run.bind_of_error hthrough]

theorem answer_eq (act : WindowM α) (reply : α → Reply) (hk : s.windows[k]? = some w) :
    answer k act reply s =
      match act ⟨s.memory, w⟩ with
      | .ok a f => .ok (reply a) (s.refocus k f)
      | .error e f => .error e (s.refocus k f) := by
  unfold answer
  rw [through_bind_eq act _ hk]
  rfl

theorem openMade_eq (act : WindowM Window) (hk : s.windows[k]? = some w) :
    openMade k act s =
      match act ⟨s.memory, w⟩ with
      | .ok v f => openWindow v (s.refocus k f)
      | .error e f => .error e (s.refocus k f) := by
  unfold openMade
  rw [through_bind_eq act _ hk]
  cases act ⟨s.memory, w⟩ <;> rfl

/-- Answering with what an access gives is answering with the access. -/
theorem answer_congr {act : WindowM α} {act' : WindowM β} {reply : α → Reply} {reply' : β → Reply}
    (hk : s.windows[k]? = some w)
    (h : (do return reply (← act) : WindowM Reply) ⟨s.memory, w⟩ =
      (do return reply' (← act') : WindowM Reply) ⟨s.memory, w⟩) :
    answer k act reply s = answer k act' reply' s := by
  have heq : ∀ {γ : Type} (x : WindowM γ) (g : γ → Reply), answer k x g s =
      match (do return g (← x) : WindowM Reply) ⟨s.memory, w⟩ with
      | .ok a f => .ok a (s.refocus k f)
      | .error e f => .error e (s.refocus k f) := by
    intro γ x g
    rw [answer_eq x g hk]
    cases hx : x ⟨s.memory, w⟩ with
    | ok a f => rw [Run.bind_of_ok hx]; rfl
    | error e f => rw [Run.bind_of_error hx]
  rw [heq, heq, h]

theorem withContent_eq {source : Nat} {v : Window} (act : List UInt8 → WindowM Reply)
    (hsource : s.windows[source]? = some v) :
    withContent k source act s = answer k (act (v.content s.memory)) id s := by
  have hthrough := through_eq (WindowM.content) hsource
  have hcontent : WindowM.content ⟨s.memory, v⟩ = .ok (v.content s.memory) ⟨s.memory, v⟩ := rfl
  rw [hcontent] at hthrough
  simp only [refocus_self hsource] at hthrough
  unfold withContent
  rw [Run.bind_of_ok hthrough]

theorem withContent_none {source : Nat} (act : List UInt8 → WindowM Reply)
    (hsource : s.windows[source]? = none) : withContent k source act s = .ok .noWindow s := by
  unfold withContent
  rw [Run.bind_of_ok (through_none _ hsource)]
  rfl

end Workspace

end ScriptImage
