import ScriptImage.Proofs.Windows

/-!
# Windows share their bytes

Windows on one buffer are windows on one memory.  A request that overwrites a range of its
window (`Request.writes?`) changes exactly these bytes of that buffer, and from then on every
window that contains them, wherever it begins, reads what was written:

    serve j (.getBytes (w.start + p - v.start) bytes.length) s' = .ok (.bytes bytes) s'

What is copied from another window are its bytes before the request, also if the two overlap.
A request that fails leaves everything as it was, and none changes a byte through a read-only
window.
-/

namespace ScriptImage

/-! ## What a request overwrites -/

namespace Request

/-- The position in its window from which a request overwrites bytes, and with which. -/
def writes? (s : Workspace) (w : Window) : Request → Option (Nat × List UInt8)
  | .set t order p v => some (p, t.stored (order.getD w.order) v)
  | .poke t v => some (w.offset, t.stored w.order v)
  | .write t order v => some (w.offset, t.stored (order.getD w.order) v)
  | .setBytes p bytes => some (p, bytes)
  | .writeBytes bytes => some (w.offset, bytes)
  | .setWindow p source => (s.windows[source]?).map fun v => (p, v.content s.memory)
  | .writeWindow source => (s.windows[source]?).map fun v => (w.offset, v.content s.memory)
  | _ => none

/-- The scalar that a request writes, with its type and byte order. -/
def scalar? (w : Window) : Request → Option ((t : Scalar) × ByteOrder × t.Bits)
  | .set t order _ v => some ⟨t, order.getD w.order, v⟩
  | .poke t v => some ⟨t, w.order, v⟩
  | .write t order v => some ⟨t, order.getD w.order, v⟩
  | _ => none

/-- Whether the cursor moves past what is written. -/
def advances : Request → Bool
  | .write .. | .writeBytes .. | .writeWindow .. => true
  | _ => false

/-- Whether a request reads or writes a value piece by piece. -/
def isComposite : Request → Bool
  | .readStructure .. | .writeCell .. | .writeStructure .. => true
  | _ => false

end Request

/-! ## Accesses that fail, and accesses through read-only windows -/

namespace WindowM

variable {α β : Type}

/-- A failure leaves the window and the memory as they are. -/
def Atomic (act : WindowM α) : Prop :=
  ∀ f e f', act f = .error e f' → f' = f

theorem atomic_of_ok {act : WindowM α} (h : ∀ f, ∃ a f', act f = .ok a f') : Atomic act := by
  intro f e f' herror
  obtain ⟨a, f₁, hok⟩ := h f
  rw [hok] at herror
  cases herror

theorem atomic_lift (x : Except Error α) : Atomic (lift x) := by
  intro f e f' h
  cases x with
  | ok a => cases h
  | error e =>
    cases h
    rfl

/-- The reply to an access does not matter for its failures. -/
theorem Atomic.reply {act : WindowM α} (hact : Atomic act) (reply : α → β) :
    Atomic (do return reply (← act) : WindowM β) := by
  intro f e f' h
  cases hrun : act f with
  | ok a f₁ =>
    rw [Run.bind_of_ok hrun] at h
    cases h
  | error e₁ f₁ =>
    rw [Run.bind_of_error hrun] at h
    cases h
    exact hact _ _ _ hrun

variable {act : WindowM α} {p q : Focus → Prop} [∀ f, Decidable (p f)] [∀ f, Decidable (q f)]
  {a : Focus → α} {made : Focus → Focus} {e e' : Focus → Error}

/-- An access that is either made or refused. -/
theorem atomic_of_ite (h : ∀ f, act f = if p f then .ok (a f) (made f) else .error (e f) f) :
    Atomic act := by
  intro f err f' herror
  rw [h] at herror
  split at herror
  · cases herror
  · cases herror
    rfl

/-- A write is made or refused, if not refused because the window is read-only. -/
theorem atomic_of_write (h : ∀ f, act f =
    if q f then .error (e' f) f else if p f then .ok (a f) (made f) else .error (e f) f) :
    Atomic act := by
  intro f err f' herror
  rw [h] at herror
  split at herror
  · cases herror
    rfl
  · split at herror
    · cases herror
    · cases herror
      rfl

theorem atomic_getBytes (p n : Nat) : Atomic (getBytes p n) :=
  atomic_of_ite (getBytes_eq p n)

theorem atomic_readBytes (n : Nat) : Atomic (readBytes n) :=
  atomic_of_ite (readBytes_eq n)

theorem atomic_setBytes (p : Nat) (bytes : List UInt8) : Atomic (setBytes p bytes) :=
  atomic_of_write (setBytes_eq p bytes)

theorem atomic_writeBytes (bytes : List UInt8) : Atomic (writeBytes bytes) :=
  atomic_of_write (writeBytes_eq bytes)

theorem atomic_getScalar (t : Scalar) (order : Option ByteOrder) (p : Nat) :
    Atomic (getScalar t order p) :=
  atomic_of_ite (getScalar_eq t order p)

theorem atomic_readScalar (t : Scalar) (order : Option ByteOrder) : Atomic (readScalar t order) := by
  intro f e f' h
  rw [readScalar_eq] at h
  cases hread : readBytes t.width.size f with
  | ok bytes f₁ =>
    rw [Run.bind_of_ok hread] at h
    cases h
  | error e₁ f₁ =>
    rw [Run.bind_of_error hread] at h
    cases h
    exact atomic_readBytes _ _ _ _ hread

theorem atomic_seek (p : Nat) : Atomic (seek p) := by
  intro f e f' h
  rw [seek_eq] at h
  split at h
  · cases h
    rfl
  · cases h

theorem atomic_skip (n : Nat) : Atomic (skip n) :=
  atomic_of_ite (skip_eq n)

theorem atomic_getPart (p n : Nat) (readOnly : Bool) : Atomic (getPart p n readOnly) :=
  atomic_of_ite (getPart_eq p n readOnly)

theorem atomic_readPart (n : Nat) (readOnly : Bool) : Atomic (readPart n readOnly) :=
  atomic_of_ite (readPart_eq n readOnly)

/-- Nothing is changed through a read-only window, which stays read-only. -/
def Frozen (act : WindowM α) : Prop :=
  ∀ f, f.window.readOnly = true →
    (Run.left act f).memory = f.memory ∧ (Run.left act f).window.readOnly = true

theorem frozen_pure (a : α) : Frozen (pure a) :=
  fun _ hf => ⟨rfl, hf⟩

theorem Frozen.bind {x : WindowM α} {g : α → WindowM β} (hx : Frozen x) (hg : ∀ a, Frozen (g a)) :
    Frozen (x >>= g) := by
  intro f hf
  obtain ⟨hmemory, hreadOnly⟩ := hx f hf
  rcases Run.left_bind x g f with ⟨e, -, h⟩ | ⟨a, -, h⟩
  · rw [h]
    exact ⟨hmemory, hreadOnly⟩
  · rw [h, ← hmemory]
    exact hg a _ hreadOnly

theorem frozen_lift (x : Except Error α) : Frozen (lift x) := by
  cases x with
  | ok a => exact frozen_pure a
  | error e => exact fun _ hf => ⟨rfl, hf⟩

theorem frozen_window : Frozen window :=
  fun _ hf => ⟨rfl, hf⟩

theorem frozen_content : Frozen content :=
  fun _ hf => ⟨rfl, hf⟩

theorem frozen_modifyWindow {g : Window → Window} (hg : ∀ w, w.readOnly = true → (g w).readOnly = true) :
    Frozen (modifyWindow g) :=
  fun f hf => ⟨rfl, hg f.window hf⟩

theorem frozen_advance (n : Nat) : Frozen (advance n) :=
  frozen_modifyWindow fun _ hw => hw

theorem frozen_getBytes (p n : Nat) : Frozen (getBytes p n) :=
  frozen_window.bind fun _ => (frozen_lift _).bind fun _ => frozen_content.bind fun _ => frozen_pure _

theorem frozen_setBytes (p : Nat) (bytes : List UInt8) : Frozen (setBytes p bytes) := by
  intro f hf
  have hset := setBytes_eq p bytes f
  rw [if_pos hf] at hset
  rw [Run.left_of_error hset]
  exact ⟨rfl, hf⟩

theorem frozen_readBytes (n : Nat) : Frozen (readBytes n) :=
  frozen_window.bind fun _ => (frozen_getBytes _ _).bind fun _ =>
    (frozen_advance n).bind fun _ => frozen_pure _

theorem frozen_writeBytes (bytes : List UInt8) : Frozen (writeBytes bytes) :=
  frozen_window.bind fun _ => (frozen_setBytes _ _).bind fun _ => frozen_advance _

theorem frozen_orderOr (order : Option ByteOrder) : Frozen (orderOr order) :=
  frozen_window.bind fun _ => frozen_pure _

theorem frozen_getScalar (t : Scalar) (order : Option ByteOrder) (p : Nat) : Frozen (getScalar t order p) :=
  (frozen_orderOr order).bind fun _ => (frozen_getBytes _ _).bind fun _ => frozen_pure _

theorem frozen_setScalar (t : Scalar) (order : Option ByteOrder) (p : Nat) (v : t.Bits) :
    Frozen (setScalar t order p v) :=
  (frozen_orderOr order).bind fun _ => frozen_setBytes _ _

theorem frozen_getPart (p n : Nat) (readOnly : Bool) : Frozen (getPart p n readOnly) :=
  frozen_window.bind fun _ => (frozen_lift _).bind fun _ => frozen_pure _

theorem frozen_seek (p : Nat) : Frozen (seek p) := by
  intro f hf
  have hseek := seek_eq p f
  split at hseek
  · rw [Run.left_of_error hseek]
    exact ⟨rfl, hf⟩
  · rw [Run.left_of_ok hseek]
    exact ⟨rfl, hf⟩

theorem frozen_read (r : ByteOrder → Reader α) : Frozen (read r) := by
  intro f hf
  unfold Run.left read
  cases r f.window.order (f.window.cursor f.memory) with
  | ok a c => exact ⟨rfl, hf⟩
  | error e c => exact ⟨rfl, hf⟩

theorem frozen_writePieces (pieces : List (List UInt8)) : Frozen (writePieces pieces) := by
  unfold writePieces
  induction pieces with
  | nil => exact frozen_pure _
  | cons bytes pieces ih => exact (frozen_writeBytes bytes).bind fun _ => ih

theorem frozen_writeStructure (announced : Nat) (encode : ByteOrder → Encoding) :
    Frozen (writeStructure announced encode) := by
  intro f hf
  have hwritable : f.window.checkWritable .wholeWrite = .error (.readOnlyWindow .wholeWrite) := if_pos hf
  have herror : writeStructure announced encode f = .error (.readOnlyWindow .wholeWrite) f := by
    unfold writeStructure
    rw [Run.bind_of_ok (show window f = .ok f.window f from rfl), hwritable]
    rfl
  rw [Run.left_of_error herror]
  exact ⟨rfl, hf⟩

end WindowM

/-! ## Requests that fail, and requests to read-only windows -/

namespace Workspace

open WindowM

variable {α : Type} {s s' : Workspace} {k : Nat} {w : Window} {r : Request}

/-- An access that is followed by what cannot fail leaves the workspace as it is if it fails. -/
theorem through_bind_atomic {act : WindowM α} {next : Option α → WorkspaceM Reply} {e : Error}
    (hact : Atomic act) (hnext : ∀ a t, ∃ reply t', next (some a) t = .ok reply t')
    (hk : s.windows[k]? = some w) (h : (through k act >>= next) s = .error e s') : s' = s := by
  rw [through_bind_eq act next hk] at h
  split at h
  · next a f _ =>
    obtain ⟨reply, t', hok⟩ := hnext a (s.refocus k f)
    rw [hok] at h
    cases h
  · next hrun =>
    cases h
    rw [hact _ _ _ hrun, refocus_self hk]

theorem answer_atomic {act : WindowM α} {reply : α → Reply} {e : Error} (hact : Atomic act)
    (hk : s.windows[k]? = some w) (h : answer k act reply s = .error e s') : s' = s :=
  through_bind_atomic hact (fun a t => ⟨reply a, t, rfl⟩) hk h

theorem openMade_atomic {act : WindowM Window} {e : Error} (hact : Atomic act)
    (hk : s.windows[k]? = some w) (h : openMade k act s = .error e s') : s' = s :=
  through_bind_atomic hact (fun _ _ => ⟨_, _, rfl⟩) hk h

theorem withContent_atomic {source : Nat} {act : List UInt8 → WindowM Reply} {e : Error}
    (hact : ∀ bytes, Atomic (act bytes)) (hk : s.windows[k]? = some w)
    (h : withContent k source act s = .error e s') : s' = s := by
  cases hsource : s.windows[source]? with
  | none =>
    rw [withContent_none act hsource] at h
    cases h
  | some v =>
    rw [withContent_eq act hsource] at h
    exact answer_atomic (hact _) hk h

theorem through_window (k : Nat) (s : Workspace) : through k window s = .ok s.windows[k]? s := by
  cases hk : s.windows[k]? with
  | none => exact through_none _ hk
  | some w =>
    rw [through_eq window hk]
    exact congrArg (EStateM.Result.ok (some w)) (refocus_self hk)

/-- A request that fails leaves the workspace as it is, unless it works piece by piece. -/
theorem serve_atomic {e : Error} (hk : s.windows[k]? = some w) (hr : r.isComposite = false)
    (h : serve k r s = .error e s') : s' = s := by
  cases r with
  | zeros length order => cases h
  | ofBytes bytes order => cases h
  | ofHex text order =>
    cases hparse : Hex.parse text with
    | ok bytes =>
      simp only [serve, hparse] at h
      cases h
    | error fault =>
      simp only [serve, hparse] at h
      cases h
      rfl
  | duplicate => exact openMade_atomic (atomic_of_ok fun f => ⟨f.window, f, rfl⟩) hk h
  | getPart p n readOnly => exact openMade_atomic (atomic_getPart p n readOnly) hk h
  | readPart n readOnly => exact openMade_atomic (atomic_readPart n readOnly) hk h
  | get t order p => exact answer_atomic (atomic_getScalar t order p) hk h
  | set t order p v => exact answer_atomic (fun f => atomic_setBytes p _ f) hk h
  | peek t => exact answer_atomic (fun f => atomic_getScalar t none f.window.offset f) hk h
  | poke t v => exact answer_atomic (fun f => atomic_setBytes f.window.offset _ f) hk h
  | read t order => exact answer_atomic (atomic_readScalar t order) hk h
  | write t order v =>
    refine answer_atomic (fun f e f' hf => ?_) hk h
    rw [writeScalar_eq] at hf
    exact atomic_writeBytes _ f e f' hf
  | getBytes p n => exact answer_atomic (atomic_getBytes p n) hk h
  | readBytes n => exact answer_atomic (atomic_readBytes n) hk h
  | setBytes p bytes => exact answer_atomic (atomic_setBytes p bytes) hk h
  | writeBytes bytes => exact answer_atomic (atomic_writeBytes bytes) hk h
  | content => exact answer_atomic (atomic_of_ok fun f => ⟨_, f, rfl⟩) hk h
  | setWindow p source =>
    refine withContent_atomic (fun bytes => ?_) hk h
    exact (atomic_setBytes p bytes).reply fun _ => Reply.done
  | writeWindow source =>
    refine withContent_atomic (fun bytes => ?_) hk h
    exact (atomic_writeBytes bytes).reply fun _ => Reply.done
  | sharesBuffer other =>
    simp only [serve] at h
    rw [Run.bind_of_ok (through_window other s)] at h
    cases hother : s.windows[other]? with
    | none =>
      rw [hother] at h
      cases h
    | some v =>
      rw [hother] at h
      exact answer_atomic (atomic_of_ok fun f => ⟨f.window, f, rfl⟩) hk h
  | firstDifference other =>
    exact withContent_atomic (fun _ => atomic_of_ok fun f => ⟨_, f, rfl⟩) hk h
  | seek p => exact answer_atomic (atomic_seek p) hk h
  | skip n => exact answer_atomic (atomic_skip n) hk h
  | setOrder order => exact answer_atomic (atomic_of_ok fun f => ⟨_, _, rfl⟩) hk h
  | makeReadOnly => exact answer_atomic (atomic_of_ok fun f => ⟨_, _, rfl⟩) hk h
  | describe => exact answer_atomic (atomic_of_ok fun f => ⟨f.window, f, rfl⟩) hk h
  | readStructure what => cases hr
  | writeCell c => cases hr
  | writeStructure what => cases hr
  | detectOrder =>
    exact answer_atomic (fun f => atomic_lift (Header.detectOrder (f.window.content f.memory)) f) hk h

/-! ## Requests to read-only windows -/

/-- No byte changes if an access through a read-only window is followed by what changes none. -/
theorem through_bind_frozen {act : WindowM α} {next : Option α → WorkspaceM Reply} (hact : Frozen act)
    (hnext : ∀ a t, (Run.left (next (some a)) t).memory = t.memory) (hk : s.windows[k]? = some w)
    (hw : w.readOnly = true) : (Run.left (through k act >>= next) s).memory = s.memory := by
  have hmemory := (hact ⟨s.memory, w⟩ hw).1
  have hrun := through_bind_eq act next hk
  cases hact : act ⟨s.memory, w⟩ with
  | ok a f =>
    rw [hact] at hrun
    rw [Run.left_of_ok hact] at hmemory
    rw [Run.left, hrun]
    exact (hnext a (s.refocus k f)).trans hmemory
  | error e f =>
    rw [hact] at hrun
    rw [Run.left_of_error hact] at hmemory
    rw [Run.left_of_error hrun]
    exact hmemory

theorem answer_frozen {act : WindowM α} {reply : α → Reply} (hact : Frozen act)
    (hk : s.windows[k]? = some w) (hw : w.readOnly = true) :
    (Run.left (answer k act reply) s).memory = s.memory :=
  through_bind_frozen hact (fun _ _ => rfl) hk hw

theorem openMade_frozen {act : WindowM Window} (hact : Frozen act) (hk : s.windows[k]? = some w)
    (hw : w.readOnly = true) : (Run.left (openMade k act) s).memory = s.memory :=
  through_bind_frozen hact (fun _ _ => rfl) hk hw

theorem withContent_frozen {source : Nat} {act : List UInt8 → WindowM Reply}
    (hact : ∀ bytes, Frozen (act bytes)) (hk : s.windows[k]? = some w) (hw : w.readOnly = true) :
    (Run.left (withContent k source act) s).memory = s.memory := by
  cases hsource : s.windows[source]? with
  | none => rw [Run.left_of_ok (withContent_none act hsource)]
  | some v =>
    rw [Run.left, withContent_eq act hsource]
    exact answer_frozen (hact _) hk hw

theorem openBuffer_keeps (bytes : List UInt8) (order : ByteOrder) {j : Nat}
    (hj : j < s.memory.buffers.length) :
    (Run.left (openBuffer bytes order) s).memory.buffer j = s.memory.buffer j := by
  show ((s.memory.buffers ++ [bytes])[j]?).getD [] = (s.memory.buffers[j]?).getD []
  rw [List.getElem?_append_left hj]

/-- A request through a read-only window leaves the bytes of all buffers. -/
theorem serve_frozen (hk : s.windows[k]? = some w) (hw : w.readOnly = true) {j : Nat}
    (hj : j < s.memory.buffers.length) :
    (Run.left (serve k r) s).memory.buffer j = s.memory.buffer j := by
  have hanswer : ∀ {α : Type} {act : WindowM α} {reply : α → Reply}, Frozen act →
      (Run.left (answer k act reply) s).memory.buffer j = s.memory.buffer j :=
    fun hact => by rw [answer_frozen hact hk hw]
  have hcontent : ∀ {source : Nat} {act : List UInt8 → WindowM Reply}, (∀ bytes, Frozen (act bytes)) →
      (Run.left (withContent k source act) s).memory.buffer j = s.memory.buffer j :=
    fun hact => by rw [withContent_frozen hact hk hw]
  have hmade : ∀ {act : WindowM Window}, Frozen act →
      (Run.left (openMade k act) s).memory.buffer j = s.memory.buffer j :=
    fun hact => by rw [openMade_frozen hact hk hw]
  cases r with
  | zeros length order => exact openBuffer_keeps _ _ hj
  | ofBytes bytes order => exact openBuffer_keeps _ _ hj
  | ofHex text order =>
    cases hparse : Hex.parse text with
    | ok bytes =>
      simp only [serve, hparse]
      exact openBuffer_keeps _ _ hj
    | error fault =>
      simp only [serve, hparse]
      rfl
  | duplicate => exact hmade frozen_window
  | getPart p n readOnly => exact hmade (frozen_getPart p n readOnly)
  | readPart n readOnly =>
    exact hmade (frozen_window.bind fun _ => (frozen_getPart _ _ _).bind fun _ =>
      (frozen_advance n).bind fun _ => frozen_pure _)
  | get t order p => exact hanswer (frozen_getScalar t order p)
  | set t order p v => exact hanswer (frozen_setScalar t order p v)
  | peek t => exact hanswer (frozen_window.bind fun _ => frozen_getScalar t none _)
  | poke t v => exact hanswer (frozen_window.bind fun _ => frozen_setScalar t none _ v)
  | read t order =>
    exact hanswer (frozen_window.bind fun _ => (frozen_getScalar t order _).bind fun _ =>
      (frozen_advance _).bind fun _ => frozen_pure _)
  | write t order v =>
    exact hanswer (frozen_window.bind fun _ => (frozen_setScalar t order _ v).bind fun _ =>
      frozen_advance _)
  | getBytes p n => exact hanswer (frozen_getBytes p n)
  | readBytes n => exact hanswer (frozen_readBytes n)
  | setBytes p bytes => exact hanswer (frozen_setBytes p bytes)
  | writeBytes bytes => exact hanswer (frozen_writeBytes bytes)
  | content => exact hanswer frozen_content
  | setWindow p source =>
    exact hcontent fun bytes => (frozen_setBytes p bytes).bind fun _ => frozen_pure _
  | writeWindow source =>
    exact hcontent fun bytes => (frozen_writeBytes bytes).bind fun _ => frozen_pure _
  | sharesBuffer other =>
    simp only [serve]
    rw [Run.left, Run.bind_of_ok (through_window other s)]
    cases s.windows[other]? with
    | none => rfl
    | some v => exact hanswer frozen_window
  | firstDifference other =>
    exact hcontent fun _ => frozen_content.bind fun _ => frozen_pure _
  | seek p => exact hanswer (frozen_seek p)
  | skip n =>
    exact hanswer (frozen_window.bind fun _ => (frozen_lift _).bind fun _ => frozen_advance n)
  | setOrder order => exact hanswer (frozen_modifyWindow fun _ hw => hw)
  | makeReadOnly => exact hanswer (frozen_modifyWindow fun _ _ => rfl)
  | describe => exact hanswer frozen_window
  | readStructure what => exact hanswer (frozen_read _)
  | writeCell c => exact hanswer (frozen_window.bind fun _ => frozen_writePieces _)
  | writeStructure what => exact hanswer (frozen_writeStructure _ _)
  | detectOrder => exact hanswer (frozen_content.bind fun _ => frozen_lift _)

/-! ## Requests that write -/

/-- Whatever a request overwrites, it does so by one write of these bytes. -/
theorem serve_of_writes {p : Nat} {bytes : List UInt8} (hk : s.windows[k]? = some w)
    (hr : r.writes? s w = some (p, bytes)) :
    (r.advances = true → p = w.offset) ∧
      serve k r s =
        answer k (if r.advances then writeBytes bytes else setBytes p bytes) (fun _ => .done) s := by
  cases r with
  | set t order q v =>
    cases hr
    exact ⟨nofun, answer_congr hk rfl⟩
  | poke t v =>
    cases hr
    exact ⟨nofun, answer_congr hk rfl⟩
  | write t order v =>
    cases hr
    refine ⟨fun _ => rfl, ?_⟩
    show answer k (writeScalar t order v) _ s = answer k (writeBytes _) _ s
    rw [answer_eq _ _ hk, answer_eq _ _ hk, writeScalar_eq]
  | setBytes q bytes =>
    cases hr
    exact ⟨nofun, rfl⟩
  | writeBytes bytes =>
    cases hr
    exact ⟨fun _ => rfl, rfl⟩
  | setWindow q source =>
    obtain ⟨v, hsource, hv⟩ := Option.map_eq_some_iff.1 hr
    cases hv
    refine ⟨nofun, ?_⟩
    show withContent k source _ s = _
    rw [withContent_eq _ hsource]
    exact answer_congr hk (by rw [bind_assoc]; rfl)
  | writeWindow source =>
    obtain ⟨v, hsource, hv⟩ := Option.map_eq_some_iff.1 hr
    cases hv
    refine ⟨fun _ => rfl, ?_⟩
    show withContent k source _ s = _
    rw [withContent_eq _ hsource]
    exact answer_congr hk (by rw [bind_assoc]; rfl)
  | _ => cases hr

/-- What is left when `bytes` were written through window `w`, number `k`, from position `p` on. -/
structure Written (s s' : Workspace) (k : Nat) (w : Window) (p : Nat) (bytes : List UInt8)
    (advances : Bool) : Prop where
  writable : w.readOnly = false
  within : p + bytes.length ≤ w.length
  memory : ∀ j i, (s'.memory.buffer j)[i]? =
    if j = w.buffer ∧ w.start + p ≤ i ∧ i < w.start + p + bytes.length then bytes[i - (w.start + p)]?
    else (s.memory.buffer j)[i]?
  windows : s'.windows =
    s.windows.set k { w with offset := if advances then p + bytes.length else w.offset }

theorem written_of_serve {p : Nat} {bytes : List UInt8} {reply : Reply} (hs : s.Sound)
    (hk : s.windows[k]? = some w) (hr : r.writes? s w = some (p, bytes))
    (h : serve k r s = .ok reply s') : Written s s' k w p bytes r.advances := by
  obtain ⟨hcursor, hserve⟩ := serve_of_writes hk hr
  rw [hserve, answer_eq _ _ hk] at h
  have hrange := (hs w (List.mem_of_getElem? hk)).range
  by_cases hreadOnly : w.readOnly = true
  · -- a read-only window refuses the write
    cases hadvances : r.advances with
    | true =>
      rw [hadvances, if_pos rfl, writeBytes_eq, if_pos hreadOnly] at h
      cases h
    | false =>
      rw [hadvances, if_neg Bool.false_ne_true, setBytes_eq, if_pos hreadOnly] at h
      cases h
  · have hwritable : w.readOnly = false := eq_false_of_ne_true hreadOnly
    have hmemory : p + bytes.length ≤ w.length → ∀ j i,
        ((s.memory.store w.buffer (w.start + p) bytes).buffer j)[i]? = _ :=
      fun hp => Memory.getElem?_store (by omega)
    cases hadvances : r.advances with
    | true =>
      obtain rfl := hcursor hadvances
      rw [hadvances, if_pos rfl, writeBytes_eq, if_neg hreadOnly] at h
      by_cases hp : w.offset + bytes.length ≤ w.length
      · rw [if_pos hp] at h
        cases h
        exact ⟨hwritable, hp, hmemory hp, rfl⟩
      · rw [if_neg hp] at h
        cases h
    | false =>
      rw [hadvances, if_neg Bool.false_ne_true, setBytes_eq, if_neg hreadOnly] at h
      by_cases hp : p + bytes.length ≤ w.length
      · rw [if_pos hp] at h
        cases h
        exact ⟨hwritable, hp, hmemory hp, rfl⟩
      · rw [if_neg hp] at h
        cases h

/-- The bytes written, as a part of the buffer. -/
theorem Written.take_drop {p : Nat} {bytes : List UInt8} {advances : Bool}
    (h : Written s s' k w p bytes advances) :
    ((s'.memory.buffer w.buffer).drop (w.start + p)).take bytes.length = bytes := by
  refine take_drop_eq_of_getElem? fun i hi => ?_
  rw [h.memory, if_pos ⟨rfl, by omega, by omega⟩, Nat.add_sub_cancel_left]

/-- Every window that contains the bytes written reads them, wherever it begins. -/
theorem Written.content {p : Nat} {bytes : List UInt8} {advances : Bool} {v : Window}
    (h : Written s s' k w p bytes advances) (hv : v.buffer = w.buffer)
    (hlow : v.start ≤ w.start + p) (hhigh : w.start + p + bytes.length ≤ v.start + v.length) :
    ((v.content s'.memory).drop (w.start + p - v.start)).take bytes.length = bytes := by
  have hstart : v.start + (w.start + p - v.start) = w.start + p := by omega
  rw [Window.take_drop_content (by omega), hstart, hv, h.take_drop]

end Workspace

/-! ## Scalars in the other byte order -/

theorem ByteOrder.decode_inverted (order : ByteOrder) (bytes : List UInt8) :
    order.inverted.decode bytes = order.decode bytes.reverse := by
  cases order with
  | little => rfl
  | big => exact congrArg littleValue bytes.reverse_reverse.symm

theorem ByteOrder.eq_inverted_of_ne {order other : ByteOrder} (h : other ≠ order) :
    other = order.inverted := by
  cases order <;> cases other <;> first | rfl | exact absurd rfl h

namespace Scalar

theorem ofBytes_stored (t : Scalar) (order : ByteOrder) (v : t.Bits) :
    t.ofBytes order (t.stored order v) = v := by
  have hlt : v.toNat < 256 ^ t.width.size := by
    have := v.isLt
    rwa [Nat.pow_mul] at this
  unfold ofBytes stored
  rw [ByteOrder.decode_encode, Nat.mod_eq_of_lt hlt, BitVec.ofNat_toNat, BitVec.setWidth_eq]

/-- A scalar read in the byte order it was written in is itself, and otherwise its bytes are
turned round. -/
theorem ofBytes_stored_eq_ite (t : Scalar) (order asked : ByteOrder) (v : t.Bits) :
    t.ofBytes asked (t.stored order v) =
      if asked = order then v else t.ofBytes order (t.stored order v).reverse := by
  by_cases h : asked = order
  · rw [if_pos h, h, ofBytes_stored]
  · rw [if_neg h, ByteOrder.eq_inverted_of_ne h, ofBytes, ByteOrder.decode_inverted]
    rfl

end Scalar

namespace Request

theorem writes?_of_scalar? {s : Workspace} {w : Window} {r : Request} {t : Scalar} {order : ByteOrder}
    {x : t.Bits} (h : r.scalar? w = some ⟨t, order, x⟩) :
    ∃ p, r.writes? s w = some (p, t.stored order x) := by
  cases r <;> cases h <;> exact ⟨_, rfl⟩

end Request

/-! ## Windows as windows on one memory -/

namespace Workspace

variable {s : Workspace} {k : Nat} {w : Window} {r : Request}

/-- What is written through one window is written to the memory of all: exactly these bytes change,
and every window that contains them reads them, as they are or as the scalar that was written. A
request that fails changes nothing, unless it works piece by piece, and no request changes a byte
through a read-only window. -/
theorem serve_shares (hs : s.Sound) (hk : s.windows[k]? = some w) (r : Request) :
    (∀ p bytes reply s', r.writes? s w = some (p, bytes) → serve k r s = .ok reply s' →
      Written s s' k w p bytes r.advances ∧
      ∀ j v, s'.windows[j]? = some v → v.buffer = w.buffer →
        v.start ≤ w.start + p → w.start + p + bytes.length ≤ v.start + v.length →
        serve j (.getBytes (w.start + p - v.start) bytes.length) s' = .ok (.bytes bytes) s' ∧
        ∀ t order x, r.scalar? w = some ⟨t, order, x⟩ → ∀ asked : Option ByteOrder,
          serve j (.get t asked (w.start + p - v.start)) s' =
            .ok (.scalar t (if asked.getD v.order = order then x else t.ofBytes order bytes.reverse)) s') ∧
    (∀ e s', r.isComposite = false → serve k r s = .error e s' → s' = s) ∧
    (w.readOnly = true → ∀ j < s.memory.buffers.length,
      (Run.left (serve k r) s).memory.buffer j = s.memory.buffer j) := by
  refine ⟨fun p bytes reply s' hr h => ?_, fun e s' hr h => serve_atomic hk hr h,
    fun hw j hj => serve_frozen hk hw hj⟩
  have hwritten := written_of_serve hs hk hr h
  refine ⟨hwritten, fun j v hj hv hlow hhigh => ?_⟩
  have hcontent := hwritten.content hv hlow hhigh
  have hfits : w.start + p - v.start + bytes.length ≤ v.length := by omega
  constructor
  · have hget := WindowM.getBytes_eq (w.start + p - v.start) bytes.length ⟨s'.memory, v⟩
    rw [if_pos hfits, hcontent] at hget
    show answer j (WindowM.getBytes _ _) Reply.bytes s' = _
    rw [answer_eq _ _ hj, hget]
    exact congrArg _ (refocus_self hj)
  · intro t order x hscalar asked
    obtain ⟨q, hstored⟩ := Request.writes?_of_scalar? (s := s) hscalar
    rw [hr] at hstored
    cases hstored
    rw [WindowM.length_stored] at hfits hcontent
    have hget := WindowM.getScalar_eq t asked (w.start + p - v.start) ⟨s'.memory, v⟩
    rw [if_pos hfits, hcontent, Scalar.ofBytes_stored_eq_ite] at hget
    show answer j (WindowM.getScalar t asked _) (Reply.scalar t) s' = _
    rw [answer_eq _ _ hj, hget]
    exact congrArg _ (refocus_self hj)

/-- Six bytes with a window on all, one on the first five, and one on two bytes of the latter. -/
def nestedWindows : Workspace :=
  ⟨⟨[[1, 2, 3, 4, 5, 0]]⟩,
    [⟨0, 0, 6, 0, .little, false⟩, ⟨0, 0, 5, 0, .little, true⟩, ⟨0, 2, 2, 0, .little, false⟩]⟩

/-- The same windows, after a scalar was written through the smallest one. -/
def nestedWindowsStored : Workspace :=
  ⟨⟨[[1, 2, 0xBE, 0xEF, 5, 0]]⟩, nestedWindows.windows⟩

/-- The first five bytes are copied one to the right, over themselves; or a scalar is written and
then read through another window, in the other byte order. -/
theorem serve_shares_nested :
    nestedWindows.Sound ∧
    Written nestedWindows ⟨⟨[[1, 1, 2, 3, 4, 5]]⟩, nestedWindows.windows⟩ 0
      ⟨0, 0, 6, 0, .little, false⟩ 1 [1, 2, 3, 4, 5] false ∧
    serve 1 (.get ⟨.unsigned, .two⟩ (some .little) 2) nestedWindowsStored =
      .ok (.scalar ⟨.unsigned, .two⟩ 0xEFBE#16) nestedWindowsStored := by
  have hs : nestedWindows.Sound := by
    intro w hw
    simp only [nestedWindows, List.mem_cons, List.not_mem_nil, or_false] at hw
    rcases hw with rfl | rfl | rfl <;> exact ⟨by decide, by decide⟩
  refine ⟨hs, ?_, ?_⟩
  · exact ((serve_shares (k := 0) hs rfl (.setWindow 1 1)).1 1 [1, 2, 3, 4, 5] .done
      ⟨⟨[[1, 1, 2, 3, 4, 5]]⟩, nestedWindows.windows⟩ rfl (by rfl)).1
  · have hset : serve 2 (.set ⟨.unsigned, .two⟩ (some .big) 0 0xBEEF#16) nestedWindows =
        .ok .done nestedWindowsStored := by rfl
    have hseen := ((serve_shares (k := 2) hs rfl (.set ⟨.unsigned, .two⟩ (some .big) 0 0xBEEF#16)).1
      0 [0xBE, 0xEF] .done nestedWindowsStored rfl hset).2
    exact (hseen 1 _ rfl rfl (by decide) (by decide)).2 _ _ _ rfl (some .little)

end Workspace

end ScriptImage
