import ScriptImage.Proofs.SharedBytes
import ScriptImage.Proofs.WordRequests

/-!
# Sessions cause no fault

However many windows look at however many buffers, and whatever is asked of them one after the
other, every window stays in its buffer and every cursor in its window.  So no request computes
a position that is not a word or a range that is not there, and a session in word arithmetic goes
as the one in natural numbers:

    Machine.session rs .empty = .ok replies s     where (replies, s) = Workspace.session rs .empty

Along the way buffers keep their sizes and windows their ranges, and what is read-only stays so.
Positions and lengths in requests may be any numbers; new buffers are shorter than `2 ^ 63` bytes.
-/

namespace ScriptImage

open Fault

namespace Workspace

variable {α : Type} {s s' s'' : Workspace} {k : Nat} {w : Window}

/-! ## Sound workspaces -/

/-- Every window lies in its buffer with its cursor in the window, and no buffer reaches the
limit. -/
structure Fits (s : Workspace) : Prop where
  sound : s.Sound
  small : ∀ bytes ∈ s.memory.buffers, bytes.length < bufferLimit

/-- What requests leave as it is: the sizes of buffers, the ranges of windows, and that a window
is read-only. -/
structure Follows (s s' : Workspace) : Prop where
  buffers : ∀ {k : Nat} {bytes : List UInt8}, s.memory.buffers[k]? = some bytes →
    ∃ bytes', s'.memory.buffers[k]? = some bytes' ∧ bytes'.length = bytes.length
  windows : ∀ {k : Nat} {w : Window}, s.windows[k]? = some w →
    ∃ w', s'.windows[k]? = some w' ∧ w'.buffer = w.buffer ∧ w'.start = w.start ∧
      w'.length = w.length ∧ (w.readOnly = true → w'.readOnly = true)

theorem Follows.refl (s : Workspace) : s.Follows s :=
  ⟨fun h => ⟨_, h, rfl⟩, fun h => ⟨_, h, rfl, rfl, rfl, id⟩⟩

theorem Follows.trans (h : s.Follows s') (h' : s'.Follows s'') : s.Follows s'' where
  buffers := by
    intro k bytes hk
    obtain ⟨bytes', hk', hlength⟩ := h.buffers hk
    obtain ⟨bytes'', hk'', hlength'⟩ := h'.buffers hk'
    exact ⟨bytes'', hk'', hlength'.trans hlength⟩
  windows := by
    intro k w hk
    obtain ⟨w', hk', hbuffer, hstart, hlength, hreadOnly⟩ := h.windows hk
    obtain ⟨w'', hk'', hbuffer', hstart', hlength', hreadOnly'⟩ := h'.windows hk'
    exact ⟨w'', hk'', hbuffer'.trans hbuffer, hstart'.trans hstart, hlength'.trans hlength,
      fun hw => hreadOnly' (hreadOnly hw)⟩

/-- The workspaces that requests lead to. -/
def guard : Guard Workspace where
  Holds := Fits
  Follows := Follows
  refl := fun s _ => Follows.refl s
  trans := fun _ _ _ h h' => h.trans h'

theorem fits_empty : empty.Fits :=
  ⟨nofun, nofun⟩

theorem Fits.focus (hs : s.Fits) (hk : s.windows[k]? = some w) : Focus.Sound ⟨s.memory, w⟩ := by
  refine ⟨hs.sound w (List.mem_of_getElem? hk), ?_⟩
  show (s.memory.buffer w.buffer).length < bufferLimit
  unfold Memory.buffer
  cases hbuffer : s.memory.buffers[w.buffer]? with
  | none => exact Nat.two_pow_pos 63
  | some bytes => exact hs.small bytes (List.mem_of_getElem? hbuffer)

/-- An access through one window keeps all others in their buffers. -/
theorem Fits.refocus {f : Focus} (hs : s.Fits) (hk : s.windows[k]? = some w)
    (hf : Focus.Follows ⟨s.memory, w⟩ f) : (s.refocus k f).Fits ∧ s.Follows (s.refocus k f) := by
  have hsizes : f.memory.buffers.map List.length = s.memory.buffers.map List.length := hf.lengths
  refine ⟨⟨fun v hv => ?_, fun bytes hbytes => ?_⟩, fun {j bytes} hj => ?_, fun {j v} hj => ?_⟩
  · rcases List.mem_or_eq_of_mem_set hv with hv | rfl
    · obtain ⟨hrange, hcursor⟩ := hs.sound v hv
      refine ⟨?_, hcursor⟩
      show v.start + v.length ≤ (f.memory.buffer v.buffer).length
      rw [Memory.length_buffer_of_map hsizes]
      exact hrange
    · exact (hf.sound (hs.focus hk)).window
  · have hmem : bytes.length ∈ f.memory.buffers.map List.length := List.mem_map_of_mem hbytes
    rw [hsizes] at hmem
    obtain ⟨old, hold, hlength⟩ := List.mem_map.1 hmem
    rw [← hlength]
    exact hs.small old hold
  · have hlength : (f.memory.buffers.map List.length)[j]? = some bytes.length := by
      rw [hsizes, List.getElem?_map, hj, Option.map_some]
    rw [List.getElem?_map] at hlength
    exact Option.map_eq_some_iff.1 hlength
  · by_cases hjk : k = j
    · subst hjk
      rw [hk] at hj
      cases hj
      have hlt : k < s.windows.length := (List.getElem?_eq_some_iff.1 hk).1
      exact ⟨f.window, List.getElem?_set_self hlt, hf.buffer, hf.start, hf.length, hf.readOnly⟩
    · exact ⟨v, (List.getElem?_set_ne hjk).trans hj, rfl, rfl, rfl, id⟩

/-- A new window on what there is. -/
theorem Fits.openWindow (hs : s.Fits) (hw : w.Sound s.memory) :
    Fits { s with windows := s.windows ++ [w] } ∧ s.Follows { s with windows := s.windows ++ [w] } := by
  refine ⟨⟨fun v hv => ?_, hs.small⟩, fun hk => ⟨_, hk, rfl⟩, fun hk => ?_⟩
  · rcases List.mem_append.1 hv with hv | hv
    · exact hs.sound v hv
    · cases List.mem_singleton.1 hv
      exact hw
  · have hlt := (List.getElem?_eq_some_iff.1 hk).1
    exact ⟨_, (List.getElem?_append_left hlt).trans hk, rfl, rfl, rfl, id⟩

/-- A new buffer behind those that there are. -/
theorem Fits.openBuffer (hs : s.Fits) {bytes : List UInt8} (hbytes : bytes.length < bufferLimit) :
    Fits { s with memory := ⟨s.memory.buffers ++ [bytes]⟩ } ∧
      s.Follows { s with memory := ⟨s.memory.buffers ++ [bytes]⟩ } := by
  refine ⟨⟨fun v hv => ?_, fun b hb => ?_⟩, fun hk => ?_, fun hk => ⟨_, hk, rfl, rfl, rfl, id⟩⟩
  · obtain ⟨hrange, hcursor⟩ := hs.sound v hv
    refine ⟨Nat.le_trans hrange ?_, hcursor⟩
    show (s.memory.buffers[v.buffer]?.getD []).length ≤
      ((s.memory.buffers ++ [bytes])[v.buffer]?.getD []).length
    by_cases hlt : v.buffer < s.memory.buffers.length
    · exact Nat.le_of_eq (by rw [List.getElem?_append_left hlt])
    · rw [List.getElem?_eq_none (Nat.le_of_not_lt hlt)]
      exact Nat.zero_le _
  · rcases List.mem_append.1 hb with hb | hb
    · exact hs.small b hb
    · cases List.mem_singleton.1 hb
      exact hbytes
  · have hlt := (List.getElem?_eq_some_iff.1 hk).1
    exact ⟨_, (List.getElem?_append_left hlt).trans hk, rfl⟩

theorem sound_whole (s : Workspace) (bytes : List UInt8) (order : ByteOrder) :
    (Window.whole s.memory.buffers.length bytes.length order).Sound ⟨s.memory.buffers ++ [bytes]⟩ := by
  refine ⟨Nat.le_of_eq ?_, Nat.zero_le _⟩
  show 0 + bytes.length = ((s.memory.buffers ++ [bytes])[s.memory.buffers.length]?.getD []).length
  rw [List.getElem?_concat_length, Option.getD_some, Nat.zero_add]

end Workspace

/-! ## Requests -/

namespace Machine

variable {α : Type} {s : Workspace} {k : Nat}

theorem agrees_openWindow {w : Window} (hs : s.Fits) (hw : w.Sound s.memory) :
    AgreesAt Workspace.guard s (take (Workspace.openWindow w)) (Workspace.openWindow w) := by
  obtain ⟨hfits, hfollows⟩ := hs.openWindow hw
  exact ⟨_, hfits, hfollows, .inl ⟨_, rfl, rfl⟩⟩

theorem agrees_openBuffer {bytes : List UInt8} (hbytes : bytes.length < bufferLimit) (order : ByteOrder) :
    Agrees Workspace.guard (take (Workspace.openBuffer bytes order)) (Workspace.openBuffer bytes order) := by
  intro s hs
  obtain ⟨hfits, hfollows⟩ := Workspace.Fits.openBuffer hs hbytes
  obtain ⟨hfits', hfollows'⟩ := hfits.openWindow (s.sound_whole bytes order)
  exact ⟨_, hfits', hfollows.trans hfollows', .inl ⟨_, rfl, rfl⟩⟩

theorem agrees_through {m : MachineM α} {act : WindowM α} (k : Nat) (h : Agrees Focus.guard m act) :
    Agrees Workspace.guard (through k m) (Workspace.through k act) := by
  intro s hs
  have hs : s.Fits := hs
  cases hk : s.windows[k]? with
  | none =>
    refine ⟨s, hs, Workspace.Follows.refl s, .inl ⟨none, Workspace.through_none act hk, ?_⟩⟩
    rw [through, hk]
  | some w =>
    obtain ⟨f, -, hfollows, hrun⟩ := h _ (hs.focus hk)
    obtain ⟨hfits, hfollows⟩ := hs.refocus hk hfollows
    refine ⟨s.refocus k f, hfits, hfollows, ?_⟩
    rw [Workspace.through_eq act hk, through, hk]
    rcases hrun with ⟨a, hact, hm⟩ | ⟨e, hact, hm⟩
    · exact .inl ⟨some a, by rw [hact], by simp only [hm]; rfl⟩
    · exact .inr ⟨e, by rw [hact], by simp only [hm]; rfl⟩

theorem agrees_answer {m : MachineM α} {act : WindowM α} (k : Nat) (reply : α → Reply)
    (h : Agrees Focus.guard m act) :
    Agrees Workspace.guard (answer k m reply) (Workspace.answer k act reply) := by
  refine (agrees_through k h).bind fun result => ?_
  cases result with
  | none => exact agrees_pure _ _
  | some a => exact agrees_pure _ _

theorem agrees_withContent {m : List UInt8 → MachineM Reply} {act : List UInt8 → WindowM Reply}
    (k source : Nat) (h : ∀ bytes, Agrees Focus.guard (m bytes) (act bytes)) :
    Agrees Workspace.guard (withContent k source m) (Workspace.withContent k source act) := by
  refine (agrees_through source MachineM.agrees_content).bind fun result => ?_
  cases result with
  | none => exact agrees_pure _ _
  | some bytes => exact agrees_answer k id (h bytes)

/-- A window made through another one, if it lies in its buffer. -/
theorem agrees_openMade {m : MachineM Window} {act : WindowM Window} (k : Nat)
    (h : Agrees Focus.guard m act)
    (hmade : ∀ f v f', f.Sound → act f = .ok v f' → v.Sound f'.memory) :
    Agrees Workspace.guard (openMade k m) (Workspace.openMade k act) := by
  intro s hs
  have hfits : s.Fits := hs
  refine (agrees_through k h s hs).bind fun result s' hresult hs' => ?_
  cases result with
  | none => exact agrees_pure _ _ s' hs'
  | some v =>
    cases hk : s.windows[k]? with
    | none =>
      rw [Workspace.through_none act hk] at hresult
      cases hresult
    | some w =>
      rw [Workspace.through_eq act hk] at hresult
      cases hact : act ⟨s.memory, w⟩ with
      | error e f =>
        rw [hact] at hresult
        cases hresult
      | ok v' f =>
        rw [hact] at hresult
        cases hresult
        exact agrees_openWindow hs' (hmade _ _ _ (hfits.focus hk) hact)

end Machine

/-- What fits in the memory of a machine: new buffers are shorter than the limit, and the size of a
structure is a word. Positions and lengths are arbitrary. -/
def Request.Admissible : Request → Prop
  | .zeros length _ => length < bufferLimit
  | .ofBytes bytes _ => bytes.length < bufferLimit
  | .ofHex text _ => ∀ bytes, Hex.parse text = .ok bytes → bytes.length < bufferLimit
  | .writeStructure what => what.size < wordLimit
  | _ => True

namespace Machine

/-- Every request is answered alike in both arithmetics. -/
theorem agrees_serve (k : Nat) {r : Request} (hr : r.Admissible) :
    Agrees Workspace.guard (serve k r) (Workspace.serve k r) := by
  cases r with
  | zeros length order =>
    exact agrees_openBuffer (by rw [List.length_replicate]; exact hr) order
  | ofBytes bytes order => exact agrees_openBuffer hr order
  | ofHex text order =>
    cases hparse : Hex.parse text with
    | ok bytes =>
      simp only [serve, Workspace.serve, hparse]
      exact agrees_openBuffer (hr bytes hparse) order
    | error fault =>
      simp only [serve, Workspace.serve, hparse]
      exact agrees_throw _ _
  | duplicate =>
    refine agrees_openMade k MachineM.agrees_window fun f v f' hf h => ?_
    cases h
    exact hf.window
  | getPart p n readOnly =>
    refine agrees_openMade k (MachineM.agrees_getPart p n readOnly) fun f v f' hf h => ?_
    obtain ⟨hp, rfl, hmemory⟩ := WindowM.part_of_getPart h
    rw [hmemory]
    exact hf.part hp readOnly
  | readPart n readOnly =>
    refine agrees_openMade k (MachineM.agrees_readPart n readOnly) fun f v f' hf h => ?_
    obtain ⟨hp, rfl, hmemory⟩ := WindowM.part_of_readPart h
    rw [hmemory]
    exact hf.part hp readOnly
  | get t order p => exact agrees_answer k _ (MachineM.agrees_getScalar t order p)
  | set t order p v => exact agrees_answer k _ (MachineM.agrees_setScalar t order p v)
  | peek t =>
    exact agrees_answer k _ (MachineM.agrees_window.bind fun w => MachineM.agrees_getScalar t none w.offset)
  | poke t v =>
    exact agrees_answer k _ (MachineM.agrees_window.bind fun w => MachineM.agrees_setScalar t none w.offset v)
  | read t order => exact agrees_answer k _ (MachineM.agrees_readScalar t order)
  | write t order v => exact agrees_answer k _ (MachineM.agrees_writeScalar t order v)
  | getBytes p n => exact agrees_answer k _ (MachineM.agrees_getBytes p n)
  | readBytes n => exact agrees_answer k _ (MachineM.agrees_readBytes n)
  | setBytes p bytes => exact agrees_answer k _ (MachineM.agrees_setBytes p bytes)
  | writeBytes bytes => exact agrees_answer k _ (MachineM.agrees_writeBytes bytes)
  | content => exact agrees_answer k _ MachineM.agrees_content
  | setWindow p source =>
    exact agrees_withContent k source fun bytes =>
      (MachineM.agrees_setBytes p bytes).bind fun _ => agrees_pure _ _
  | writeWindow source =>
    exact agrees_withContent k source fun bytes =>
      (MachineM.agrees_writeBytes bytes).bind fun _ => agrees_pure _ _
  | sharesBuffer other =>
    refine (agrees_through other MachineM.agrees_window).bind fun result => ?_
    cases result with
    | none => exact agrees_pure _ _
    | some w => exact agrees_answer k _ MachineM.agrees_window
  | firstDifference other =>
    exact agrees_withContent k other fun _ => MachineM.agrees_content.bind fun _ => agrees_pure _ _
  | seek p => exact agrees_answer k _ (MachineM.agrees_seek p)
  | skip n => exact agrees_answer k _ (MachineM.agrees_skip n)
  | setOrder order =>
    exact agrees_answer k _ (MachineM.agrees_modifyWindow fun f hf =>
      ⟨rfl, rfl, rfl, rfl, hf.window.cursor, id⟩)
  | makeReadOnly =>
    exact agrees_answer k _ (MachineM.agrees_modifyWindow fun f hf =>
      ⟨rfl, rfl, rfl, rfl, hf.window.cursor, fun _ => rfl⟩)
  | describe => exact agrees_answer k _ MachineM.agrees_window
  | readStructure what =>
    exact agrees_answer k _ (MachineM.agrees_read fun order => MachineM.performs_readable order what)
  | writeCell c => exact agrees_answer k _ (MachineM.agrees_writeCell c)
  | writeStructure what => exact agrees_answer k _ (MachineM.agrees_writeStructure what hr)
  | detectOrder => exact agrees_answer k _ MachineM.agrees_detectOrder

/-! ## Sessions -/

theorem session_cons (r : Request) (rest : List (Nat × Request)) (s : Workspace) :
    Workspace.session ((k, r) :: rest) s =
      ((Workspace.respond k r s).1 :: (Workspace.session rest (Workspace.respond k r s).2).1,
        (Workspace.session rest (Workspace.respond k r s).2).2) :=
  rfl

/-- A session goes alike in both arithmetics, and every state follows those before it. -/
theorem session_eq {rs : List (Nat × Request)} (hrs : ∀ q ∈ rs, q.2.Admissible) {s : Workspace}
    (hs : s.Fits) :
    session rs s = .ok (Workspace.session rs s).1 (Workspace.session rs s).2 ∧
      (Workspace.session rs s).2.Fits ∧ s.Follows (Workspace.session rs s).2 := by
  induction rs generalizing s with
  | nil => exact ⟨rfl, hs, Workspace.Follows.refl s⟩
  | cons q rest ih =>
    obtain ⟨k, r⟩ := q
    have hrest : ∀ q ∈ rest, q.2.Admissible := fun q hq => hrs q (List.mem_cons_of_mem _ hq)
    -- one request, whatever its answer
    obtain ⟨s', hs', hfollows, hrun⟩ := agrees_serve k (hrs (k, r) List.mem_cons_self) s hs
    have hstep : respond (serve k r) s = .ok (Workspace.respond k r s).1 s' ∧
        (Workspace.respond k r s).2 = s' := by
      unfold respond Workspace.respond
      rcases hrun with ⟨reply, hact, hm⟩ | ⟨e, hact, hm⟩
      · rw [hact, hm]
        exact ⟨rfl, rfl⟩
      · rw [hact, hm]
        exact ⟨rfl, rfl⟩
    obtain ⟨hsession, hlast, hfollows'⟩ := ih hrest hs'
    rw [session_cons, hstep.2]
    refine ⟨?_, hlast, Workspace.Follows.trans hfollows hfollows'⟩
    show (respond (serve k r) >>= fun reply => session rest >>= fun replies =>
      pure (reply :: replies)) s = _
    rw [Run.bind_of_ok hstep.1, Run.bind_of_ok hsession]
    rfl

end Machine

namespace Workspace

variable {s s' : Workspace} {k : Nat} {w : Window} {r : Request}

theorem session_append (before after : List (Nat × Request)) (s : Workspace) :
    (session (before ++ after) s).2 = (session after (session before s).2).2 := by
  induction before generalizing s with
  | nil => rfl
  | cons q rest ih => exact ih (respond q.1 q.2 s).2

end Workspace

/-! ## Ranges that are not in the window -/

namespace Request

/-- The range of the window that a request is about: where it begins and how long it is. -/
def range? (s : Workspace) (w : Window) : Request → Option (Nat × Nat)
  | .get t _ p => some (p, t.width.size)
  | .set t _ p _ => some (p, t.width.size)
  | .peek t => some (w.offset, t.width.size)
  | .poke t _ => some (w.offset, t.width.size)
  | .read t _ => some (w.offset, t.width.size)
  | .write t _ _ => some (w.offset, t.width.size)
  | .getBytes p n => some (p, n)
  | .readBytes n => some (w.offset, n)
  | .setBytes p bytes => some (p, bytes.length)
  | .writeBytes bytes => some (w.offset, bytes.length)
  | .setWindow p source => (s.windows[source]?).map fun v => (p, v.length)
  | .writeWindow source => (s.windows[source]?).map fun v => (w.offset, v.length)
  | .getPart p n _ => some (p, n)
  | .readPart n _ => some (w.offset, n)
  | .skip n => some (w.offset, n)
  | .writeStructure what => some (w.offset, what.size)
  | _ => none

/-- Whether a request asks for a window that may be written. -/
def isWrite : Request → Bool
  | .set .. | .poke .. | .write .. | .setBytes .. | .writeBytes .. | .setWindow .. | .writeWindow .. => true
  | .writeStructure .. => true
  | _ => false

/-- Whether a request makes a window out of another. -/
def derives : Request → Bool
  | .duplicate | .getPart .. | .readPart .. => true
  | _ => false

/-- A write is of bytes or of a structure, and its range is as long as these. -/
theorem writes_or_structure {s : Workspace} {w : Window} {r : Request} {p n : Nat} (hs : s.Sound)
    (hr : r.range? s w = some (p, n)) (hw : r.isWrite = true) :
    (∃ bytes, r.writes? s w = some (p, bytes) ∧ bytes.length = n) ∨
      ∃ what, r = .writeStructure what ∧ p = w.offset ∧ n = what.size := by
  have hscalar := fun (t : Scalar) (order : ByteOrder) v => WindowM.length_stored t order v
  -- the bytes of another window are as many as its length
  have hsource : ∀ {source q : Nat}, (s.windows[source]?).map (fun v => (q, v.length)) = some (p, n) →
      ∃ bytes, (s.windows[source]?).map (fun v => (q, v.content s.memory)) = some (p, bytes) ∧
        bytes.length = n := by
    intro source q hr
    obtain ⟨v, hv, hrange⟩ := Option.map_eq_some_iff.1 hr
    cases hrange
    exact ⟨_, by rw [hv]; rfl, (hs v (List.mem_of_getElem? hv)).length_content⟩
  cases r with
  | set t order q v =>
    cases hr
    exact .inl ⟨_, rfl, hscalar _ _ _⟩
  | poke t v =>
    cases hr
    exact .inl ⟨_, rfl, hscalar _ _ _⟩
  | write t order v =>
    cases hr
    exact .inl ⟨_, rfl, hscalar _ _ _⟩
  | setBytes q bytes =>
    cases hr
    exact .inl ⟨bytes, rfl, rfl⟩
  | writeBytes bytes =>
    cases hr
    exact .inl ⟨bytes, rfl, rfl⟩
  | setWindow q source => exact .inl (hsource hr)
  | writeWindow source => exact .inl (hsource hr)
  | writeStructure what =>
    cases hr
    exact .inr ⟨what, rfl, rfl, rfl⟩
  | _ => cases hw

end Request

namespace Workspace

variable {s s' : Workspace} {k : Nat} {w : Window} {r : Request}

/-- Nothing follows an access that is refused. -/
theorem through_bind_error {α : Type} {act : WindowM α} {e : Error} (hk : s.windows[k]? = some w)
    (h : act ⟨s.memory, w⟩ = .error e ⟨s.memory, w⟩) (next : Option α → WorkspaceM Reply) :
    (through k act >>= next) s = .error e s := by
  rw [through_bind_eq act next hk, h]
  exact congrArg _ (refocus_self hk)

theorem answer_error {α : Type} {act : WindowM α} {reply : α → Reply} {e : Error}
    (hk : s.windows[k]? = some w) (h : act ⟨s.memory, w⟩ = .error e ⟨s.memory, w⟩) :
    answer k act reply s = .error e s :=
  through_bind_error hk h _

theorem openMade_error {act : WindowM Window} {e : Error}
    (hk : s.windows[k]? = some w) (h : act ⟨s.memory, w⟩ = .error e ⟨s.memory, w⟩) :
    openMade k act s = .error e s :=
  through_bind_error hk h _

/-- A write outside the window is refused, if not already because the window is read-only. -/
theorem serve_writes_outside {p : Nat} {bytes : List UInt8} (hk : s.windows[k]? = some w)
    (hr : r.writes? s w = some (p, bytes)) (hp : w.length < p + bytes.length) :
    ∃ e, serve k r s = .error e s ∧ e.kind = if w.readOnly then .readOnly else .range := by
  obtain ⟨hcursor, hserve⟩ := serve_of_writes hk hr
  rw [hserve]
  have hset := WindowM.setBytes_eq p bytes ⟨s.memory, w⟩
  have hwrite := WindowM.writeBytes_eq bytes ⟨s.memory, w⟩
  by_cases hw : w.readOnly = true
  · rw [if_pos hw] at hset hwrite
    refine ⟨.readOnlyWindow .write, answer_error hk ?_, (if_pos hw).symm⟩
    split
    · exact hwrite
    · exact hset
  · rw [if_neg hw] at hset hwrite
    have hout : ¬p + bytes.length ≤ w.length := by omega
    refine ⟨.outsideWindow .write bytes.length p w.length, answer_error hk ?_, (if_neg hw).symm⟩
    split
    · next hadvances =>
      obtain rfl := hcursor hadvances
      rw [if_neg hout] at hwrite
      exact hwrite
    · rw [if_neg hout] at hset
      exact hset

/-- A structure whose size goes beyond the window is not written. -/
theorem serve_structure_outside {what : Writable} (hk : s.windows[k]? = some w)
    (hp : w.length < w.offset + what.size) :
    ∃ e, serve k (.writeStructure what) s = .error e s ∧
      e.kind = if w.readOnly then .readOnly else .range := by
  have hout : ¬w.offset + what.size ≤ w.length := by omega
  have hwrite := WindowM.writeStructure_eq what.size (fun order => what.encode order)
    (f := ⟨s.memory, w⟩) rfl
  by_cases hw : w.readOnly = true
  · rw [if_pos hw] at hwrite
    exact ⟨_, answer_error hk hwrite, (if_pos hw).symm⟩
  · rw [if_neg hw, if_neg hout] at hwrite
    exact ⟨_, answer_error hk hwrite, (if_neg hw).symm⟩

/-- What is not in the window is not read, nor made a part, nor passed over. -/
theorem serve_reads_outside {p n : Nat} (hk : s.windows[k]? = some w)
    (hr : r.range? s w = some (p, n)) (hw : r.isWrite = false) (hp : w.length < p + n) :
    ∃ e, serve k r s = .error e s ∧ e.kind = .range := by
  have hout : ¬p + n ≤ w.length := by omega
  cases r with
  | get t order q =>
    cases hr
    exact ⟨_, answer_error hk ((WindowM.getScalar_eq t order p _).trans (if_neg hout)), rfl⟩
  | peek t =>
    cases hr
    exact ⟨_, answer_error hk ((WindowM.getScalar_eq t none w.offset _).trans (if_neg hout)), rfl⟩
  | read t order =>
    cases hr
    have hbytes := (WindowM.readBytes_eq t.width.size ⟨s.memory, w⟩).trans (if_neg hout)
    have hscalar := WindowM.readScalar_eq t order ⟨s.memory, w⟩
    rw [Run.bind_of_error hbytes] at hscalar
    exact ⟨_, answer_error hk hscalar, rfl⟩
  | getBytes q m =>
    cases hr
    exact ⟨_, answer_error hk ((WindowM.getBytes_eq p n _).trans (if_neg hout)), rfl⟩
  | readBytes m =>
    cases hr
    exact ⟨_, answer_error hk ((WindowM.readBytes_eq n _).trans (if_neg hout)), rfl⟩
  | getPart q m readOnly =>
    cases hr
    exact ⟨_, openMade_error hk ((WindowM.getPart_eq p n readOnly _).trans (if_neg hout)), rfl⟩
  | readPart m readOnly =>
    cases hr
    exact ⟨_, openMade_error hk ((WindowM.readPart_eq n readOnly _).trans (if_neg hout)), rfl⟩
  | skip m =>
    cases hr
    exact ⟨_, answer_error hk ((WindowM.skip_eq n _).trans (if_neg hout)), rfl⟩
  | _ => cases hw <;> cases hr

/-- A range that is not in the window is a range error, once a write has passed the question whether
the window may be written. -/
theorem serve_outside {p n : Nat} (hs : s.Sound) (hk : s.windows[k]? = some w)
    (hr : r.range? s w = some (p, n)) (hp : w.length < p + n) :
    ∃ e, serve k r s = .error e s ∧ e.kind = if w.readOnly && r.isWrite then .readOnly else .range := by
  by_cases hwrite : r.isWrite = true
  · rw [hwrite, Bool.and_true]
    rcases Request.writes_or_structure hs hr hwrite with ⟨bytes, hwrites, rfl⟩ | ⟨what, rfl, rfl, rfl⟩
    · exact serve_writes_outside hk hwrites hp
    · exact serve_structure_outside hk hp
  · rw [eq_false_of_ne_true hwrite, Bool.and_false]
    exact serve_reads_outside hk hr (eq_false_of_ne_true hwrite) hp

/-! ## Windows out of read-only windows -/

theorem openMade_readOnly {act : WindowM Window} {reply : Reply} (hk : s.windows[k]? = some w)
    (hact : ∀ v f, act ⟨s.memory, w⟩ = .ok v f → v.readOnly = true)
    (h : openMade k act s = .ok reply s') :
    ∃ j v, reply = .opened j ∧ s'.windows[j]? = some v ∧ v.readOnly = true := by
  rw [openMade_eq act hk] at h
  cases hrun : act ⟨s.memory, w⟩ with
  | error e f =>
    rw [hrun] at h
    cases h
  | ok v f =>
    rw [hrun] at h
    cases h
    exact ⟨_, v, rfl, List.getElem?_concat_length, hact v f hrun⟩

/-- A window that is made out of a read-only one is read-only. -/
theorem serve_derives_readOnly {reply : Reply} (hk : s.windows[k]? = some w) (hw : w.readOnly = true)
    (hr : r.derives = true) (h : serve k r s = .ok reply s') :
    ∃ j v, reply = .opened j ∧ s'.windows[j]? = some v ∧ v.readOnly = true := by
  cases r with
  | duplicate =>
    refine openMade_readOnly hk (fun v f hrun => ?_) h
    cases hrun
    exact hw
  | getPart p n readOnly =>
    refine openMade_readOnly hk (fun v f hrun => ?_) h
    obtain ⟨-, rfl, -⟩ := WindowM.part_of_getPart hrun
    exact Bool.or_eq_true_iff.2 (.inl hw)
  | readPart n readOnly =>
    refine openMade_readOnly hk (fun v f hrun => ?_) h
    obtain ⟨-, rfl, -⟩ := WindowM.part_of_readPart hrun
    exact Bool.or_eq_true_iff.2 (.inl hw)
  | _ => cases hr

/-! ## Safety -/

/-- Sessions that begin without windows cause no fault. At all times every window lies in its buffer
and its cursor in the window, and what comes later leaves sizes, ranges and read-only flags as they
are. Whatever is asked next, a range whose end is no word is a range error, and out of a read-only
window come read-only windows. -/
theorem session_safe {rs : List (Nat × Request)} (hrs : ∀ q ∈ rs, q.2.Admissible) :
    Machine.session rs empty = .ok (session rs empty).1 (session rs empty).2 ∧
    (∀ before after, rs = before ++ after →
      (session before empty).2.Sound ∧ (session before empty).2.Follows (session rs empty).2) ∧
    ∀ k w, (session rs empty).2.windows[k]? = some w → ∀ r : Request,
      (∀ p n, r.range? (session rs empty).2 w = some (p, n) → wordLimit ≤ p + n →
        ∃ e, serve k r (session rs empty).2 = .error e (session rs empty).2 ∧
          e.kind = if w.readOnly && r.isWrite then .readOnly else .range) ∧
      (w.readOnly = true → r.derives = true → ∀ reply s',
        serve k r (session rs empty).2 = .ok reply s' →
          ∃ j v, reply = .opened j ∧ s'.windows[j]? = some v ∧ v.readOnly = true) := by
  obtain ⟨hsession, hfits, -⟩ := Machine.session_eq hrs fits_empty
  refine ⟨hsession, ?_, fun k w hk r => ⟨fun p n hrange hlimit => ?_, fun hw hr reply s' h => ?_⟩⟩
  · rintro before after rfl
    have hbefore : ∀ q ∈ before, q.2.Admissible := fun q hq => hrs q (List.mem_append_left _ hq)
    have hafter : ∀ q ∈ after, q.2.Admissible := fun q hq => hrs q (List.mem_append_right _ hq)
    obtain ⟨-, hmiddle, -⟩ := Machine.session_eq hbefore fits_empty
    obtain ⟨-, -, hfollows⟩ := Machine.session_eq hafter hmiddle
    rw [session_append]
    exact ⟨hmiddle.sound, hfollows⟩
  · obtain ⟨hrange', -, hwords⟩ := (hfits.focus hk).bounds
    have hwords : w.start + w.length < wordLimit := hwords
    exact serve_outside hfits.sound hk hrange (by omega)
  · exact serve_derives_readOnly hk hw hr h

/-- A read-only part of a window, accessed at the end of its range and far behind it. -/
def partRequests : List (Nat × Request) :=
  [(0, .zeros 8 .little), (0, .getPart 2 4 true), (1, .skip 3), (1, .getBytes (2 ^ 64 - 1) 2),
    (0, .setBytes 4 [7, 9]), (1, .read ⟨.unsigned, .one⟩ none), (1, .poke ⟨.unsigned, .one⟩ 1#8)]

theorem session_safe_part :
    (∀ q ∈ partRequests, q.2.Admissible) ∧
    Machine.session partRequests empty =
      .ok
        [.ok (.opened 0), .ok (.opened 1), .ok .done, .error (.outsideWindow .read 2 (2 ^ 64 - 1) 4),
          .ok .done, .ok (.scalar ⟨.unsigned, .one⟩ 9#8), .error (.readOnlyWindow .write)]
        ⟨⟨[[0, 0, 0, 0, 7, 9, 0, 0]]⟩, [⟨0, 0, 8, 0, .little, false⟩, ⟨0, 2, 4, 4, .little, true⟩]⟩ := by
  have hadmissible : ∀ q ∈ partRequests, q.2.Admissible := by
    intro q hq
    simp only [partRequests, List.mem_cons, List.not_mem_nil, or_false] at hq
    rcases hq with rfl | rfl | rfl | rfl | rfl | rfl | rfl
    · exact (by decide : 8 < bufferLimit)
    all_goals exact trivial
  exact ⟨hadmissible, (session_safe hadmissible).1⟩

end Workspace

end ScriptImage
